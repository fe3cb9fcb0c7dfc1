import DvivonOS.Ext2.DirCalls
import DvivonOS.Vfs.ReadWrite

/-!
# Several open files on one inode

There is no inode cache. `file_open` gives each file its own copy of the on-disk inode, unless the
path is the root, and `ext2_write` works on that copy and writes it back whole. The calls through
several open files (`Opens`) are compared with the same calls when all the files share one inode
(`Shared`), and with the bytes of one file (`Text`).

As long as each call goes through a file whose copy agrees with the disk, the three agree
(`open_files_as_one`). A copy that does not agree loses the updates in between as soon as something
is written through it, be it no bytes at all.
-/

namespace DvivonOS

/-! ## Calls -/

/-- A call on an open file; the numbers are `uint32_t`. -/
inductive FileCall
  | write (data : Bytes) (count : Fin (2 ^ 32))
  | read (buf : Bytes) (count : Fin (2 ^ 32))
  | seek (offset : Fin (2 ^ 32))

/-- The result and the buffer after the call, and the file. -/
def FileCall.run : FileCall → File → FsM ((ℤ × Bytes) × File)
  | .write data count, file => do
    let (ret, file) ← fileWrite file data count
    return ((ret, data), file)
  | .read buf count, file => do
    let (ret, file, buf) ← fileRead file buf count
    return ((ret, buf), file)
  | .seek offset, file =>
    return (((fileSeek file offset).1, Bytes.zero), (fileSeek file offset).2)

def File.withInode (file : File) (inode : Inode) : File :=
  { file with handle := { file.handle with inode := inode } }

/-- A volume and the files open on it. -/
structure Opens (ι : Type) where
  vol : Vol
  file : ι → File

/-- The same files when the `inode` pointers of all of them lead to one inode, which is then the
inode of every `File`. -/
structure Shared (ι : Type) where
  vol : Vol
  file : ι → File

section Calls

variable {ι : Type}

/-- The inode that a file works on. -/
def Opens.inode (s : Opens ι) (i : ι) : Inode := (s.file i).handle.deref s.vol

/-- The files, sharing the inode `n` as it is on disk. -/
noncomputable def Opens.share (s : Opens ι) (n : ℕ) : Shared ι :=
  let inode := Inode.ofDisk n (s.vol.core.ino n)
  ⟨s.vol, fun i => (s.file i).withInode inode⟩

variable [DecidableEq ι]

def Opens.call (s : Opens ι) (i : ι) (c : FileCall) : (ℤ × Bytes) × Opens ι :=
  let r := (c.run ((s.file i).withInode (s.inode i))).run s.vol
  (r.1.1, ⟨r.2, Function.update s.file i r.1.2⟩)

def Shared.call (s : Shared ι) (i : ι) (c : FileCall) : (ℤ × Bytes) × Shared ι :=
  let r := (c.run (s.file i)).run s.vol
  let inode := r.1.2.handle.inode
  (r.1.1, ⟨r.2, fun j => (Function.update s.file i r.1.2 j).withInode inode⟩)

def Opens.calls (s : Opens ι) : List (ι × FileCall) → List (ℤ × Bytes) × Opens ι
  | [] => ([], s)
  | (i, c) :: cs =>
    let rest := Opens.calls (s.call i c).2 cs
    ((s.call i c).1 :: rest.1, rest.2)

def Shared.calls (s : Shared ι) : List (ι × FileCall) → List (ℤ × Bytes) × Shared ι
  | [] => ([], s)
  | (i, c) :: cs =>
    let rest := Shared.calls (s.call i c).2 cs
    ((s.call i c).1 :: rest.1, rest.2)

theorem Opens.calls_append (cs ds : List (ι × FileCall)) : ∀ s : Opens ι,
    s.calls (cs ++ ds) =
      ((s.calls cs).1 ++ ((s.calls cs).2.calls ds).1, ((s.calls cs).2.calls ds).2) := by
  induction cs with
  | nil => intro s; rfl
  | cons c cs ih =>
    intro s
    simp only [List.cons_append, Opens.calls, ih]

theorem Shared.calls_append (cs ds : List (ι × FileCall)) : ∀ s : Shared ι,
    s.calls (cs ++ ds) =
      ((s.calls cs).1 ++ ((s.calls cs).2.calls ds).1, ((s.calls cs).2.calls ds).2) := by
  induction cs with
  | nil => intro s; rfl
  | cons c cs ih =>
    intro s
    simp only [List.cons_append, Shared.calls, ih]

end Calls

/-! ## The bytes of one file -/

/-- The size and the bytes of a file, by the position modulo `2 ^ 32`. -/
structure Text where
  size : ℕ
  bytes : ℕ → UInt8

/-- The first `n` bytes of `data` written at `offset`. -/
def Text.write (t : Text) (data : Bytes) (offset n : ℕ) : Text where
  size := max t.size (add32 offset n)
  bytes i := if sub32 (i % 2 ^ 32) offset < n then data (sub32 (i % 2 ^ 32) offset) else t.bytes i

/-- A call at the position `offset` of a file with the bytes `t` returns `res`, moves to `offset'`
and leaves the bytes `t'`. A write may be cut short, and goes to the end of the file if the file
was opened for appending. -/
def FileCall.Serves (append : Bool) (t : Text) (offset : ℕ) (res : ℤ × Bytes) (offset' : ℕ)
    (t' : Text) : FileCall → Prop
  | .write data count =>
    let start := if append then t.size else offset
    ∃ n ≤ count.val, res = (toInt32 n, data) ∧ t' = t.write data start n ∧
      offset' = if 0 < toInt32 n then add32 start n else start
  | .read buf count =>
    let n := min count.val (t.size - offset)
    res = ((n : ℤ), piece t.bytes buf offset n) ∧ t' = t ∧ offset' = offset + n
  | .seek o => res = (toInt32 o, Bytes.zero) ∧ t' = t ∧ offset' = o

/-- The positions of the files, and the bytes they share. -/
structure Cursors (ι : Type) where
  pos : ι → ℕ
  text : Text

/-- The calls and their results, from the bytes and positions `a` to `b`: what a read returns are
the bytes that the writes before it left, whichever file they went through. -/
inductive ServesAll {ι : Type} [DecidableEq ι] (append : ι → Bool) :
    List (ι × FileCall) → List (ℤ × Bytes) → Cursors ι → Cursors ι → Prop
  | nil (a : Cursors ι) : ServesAll append [] [] a a
  | cons {i : ι} {c : FileCall} {cs : List (ι × FileCall)} {res : ℤ × Bytes}
      {rs : List (ℤ × Bytes)} {a b : Cursors ι} {o : ℕ} {t : Text} :
      c.Serves (append i) a.text (a.pos i) res o t →
      ServesAll append cs rs ⟨Function.update a.pos i o, t⟩ b →
      ServesAll append ((i, c) :: cs) (res :: rs) a b

/-- The bytes of the inode `n` on disk. -/
noncomputable def Vol.text (v : Vol) (G : Geo) (n : ℕ) : Text where
  size := iSize (v.core.ino n)
  bytes i := content (v.core.file (v.core.ino n) G) G.bs (i % 2 ^ 32)

/-! ## One call through a file that agrees with the disk -/

/-- A read that `file_read` serves. -/
def FileCall.Served (size offset : ℕ) : FileCall → Prop
  | .read _ count => Fits size [count.val] offset
  | _ => True

/-- The calls that use the inode. -/
def FileCall.UsesInode : FileCall → Prop
  | .seek _ => False
  | _ => True

/-- A consistent volume, and a file on the inode `n` whose copy of the inode agrees with it. -/
structure Agrees (v : Vol) (G : Geo) (n : ℕ) (file : File) : Prop where
  ready : Ready v G v.root
  own : Own G v.core (v.core.Alloc G) v.core.ino
  alloc : v.core.Alloc G n
  inode : file.handle.inode = Inode.ofDisk n (v.core.ino n)
  root : file.handle.cached = true → file.handle.inode = v.root
  offset : file.offset < 2 ^ 32

/-- What a call leaves: the file still agrees with the disk, and the call is one on the bytes of the
inode. -/
structure Called (v : Vol) (G : Geo) (n : ℕ) (file : File) (c : FileCall) (res : ℤ × Bytes)
    (file' : File) (v' : Vol) : Prop where
  agrees : Agrees v' G n file'
  serves : c.Serves file.append (v.text G n) file.offset res file'.offset (v'.text G n)
  append : file'.append = file.append
  cached : file'.handle.cached = file.handle.cached
  other : file.handle.cached = false → v'.root = v.root

theorem ofInt32_toInt32 {n : ℕ} (h : n < 2 ^ 32) : ofInt32 (toInt32 n) = n := by
  unfold ofInt32 toInt32
  split_ifs <;> omega

namespace Agrees

variable {v : Vol} {G : Geo} {n : ℕ} {file : File}

section Agreeing

variable (h : Agrees v G n file)

include h

theorem opened : Opened v G v.core.ino file.handle.inode where
  ready := h.ready
  own := h.own
  alloc := by rw [h.inode]; exact h.alloc
  disk := by rw [h.inode]; rfl

theorem size_lt : file.handle.inode.size < 2 ^ 32 := by
  rw [h.inode]
  exact Bytes.get32_lt _ _

theorem synced : file.handle.inode.Synced := by
  rw [h.inode]
  exact synced_ofDisk v n

theorem read (buf : Bytes) (count : Fin (2 ^ 32))
    (hf : (FileCall.read buf count).Served (v.text G n).size file.offset) :
    After ((FileCall.read buf count).run file) v fun p v' =>
      Called v G n file (.read buf count) p.1 p.2 v' := by
  have hmap : MapOk G v.core file.handle.inode.disk := by
    have := h.opened.own.mapOk h.opened.alloc
    rwa [h.opened.disk] at this
  have hsize : file.handle.inode.size = (v.text G n).size := by rw [h.inode]; rfl
  have hrun := run_fileRead_of_fits h.ready buf hmap h.size_lt count.isLt h.offset
    (by rw [hsize]; exact hf.1)
  rw [hsize] at hrun
  set k := min count.val ((v.text G n).size - file.offset) with hk
  have hsz : (v.text G n).size < 2 ^ 32 := hsize ▸ h.size_lt
  have hcall : ((FileCall.read buf count).run file).run v =
      ((((k : ℤ), piece (content (v.core.file file.handle.inode.disk G) G.bs) buf file.offset k),
        { file with offset := file.offset + k }), v) := by
    unfold FileCall.run
    rw [StateT.run_bind, hrun]
    rfl
  rw [after_of_run hcall]
  exact {
    agrees := ⟨h.ready, h.own, h.alloc, h.inode, h.root, by have := h.offset; dsimp only; omega⟩
    serves := by
      refine ⟨Prod.ext rfl (funext fun j => ?_), rfl, rfl⟩
      refine if_ctx_congr Iff.rfl (fun hj => ?_) fun _ => rfl
      show _ = content _ _ ((file.offset + j) % 2 ^ 32)
      rw [Nat.mod_eq_of_lt (by omega), h.inode]
      rfl
    append := rfl
    cached := rfl
    other := fun _ => rfl }

theorem seek (o : Fin (2 ^ 32)) :
    After ((FileCall.seek o).run file) v fun p v' => Called v G n file (.seek o) p.1 p.2 v' :=
  { agrees := ⟨h.ready, h.own, h.alloc, h.inode, h.root, o.isLt⟩
    serves := ⟨rfl, rfl, rfl⟩
    append := rfl
    cached := rfl
    other := fun _ => rfl }

theorem write (data : Bytes) (count : Fin (2 ^ 32)) :
    After ((FileCall.write data count).run file) v fun p v' =>
      Called v G n file (.write data count) p.1 p.2 v' := by
  have hsize : file.handle.inode.size = (v.text G n).size := by rw [h.inode]; rfl
  set start := if file.append then file.handle.inode.size else file.offset with hstart
  have hlt : start < 2 ^ 32 := by
    rw [hstart]
    split_ifs
    · exact h.size_lt
    · exact h.offset
  obtain ⟨⟨⟨ret, inode'⟩, v₁⟩, hrun⟩ :
      ∃ p, (ext2Write file.handle.inode data count start).run v = p := ⟨_, rfl⟩
  obtain ⟨k, rfl, hk, -, rd, hw⟩ := h.opened.wrote count.isLt hlt hrun
  have hino : file.handle.inode.ino = n := by rw [h.inode]; rfl
  have hsy := hw.synced h.synced
  have hdisk : v₁.core.ino = Function.update v.core.ino n inode'.disk := by
    rw [hw.ino, hsy.onDisk, hino]
  have hown : Own G v₁.core (v₁.core.Alloc G) v₁.core.ino := by
    rw [Core.alloc_congr hw.iused, hdisk, ← hino]
    exact hw.own
  have hself : v₁.core.ino n = inode'.disk := by rw [hdisk, Function.update_self]
  have hinode : inode' = Inode.ofDisk n (v₁.core.ino n) := by
    have hn : inode'.ino = n := by rw [hw.same]; exact hino
    rw [hself, ← hn]
    exact hsy.fields.symm
  have htext : v₁.text G n = (v.text G n).write data start k := by
    unfold Vol.text Text.write
    rw [Text.mk.injEq, hself]
    refine ⟨?_, funext fun i => ?_⟩
    · show iSize inode'.disk = max (iSize (v.core.ino n)) (add32 start k)
      have h1 : inode'.size = iSize inode'.disk := by rw [← hsy.fields]; rfl
      rw [← h1, hw.size, hsize]
      rfl
    · rw [hw.content _ (Nat.mod_lt _ (by norm_num)), h.inode]
      rfl
  set v' := if file.handle.cached then { v₁ with root := inode' } else v₁ with hv'
  have hcore : v'.core = v₁.core := by
    rw [hv']
    split_ifs <;> rfl
  have hrd : Ready v' G v'.root := by
    rw [hv']
    split_ifs
    · exact ⟨rd.geo, rd.wf, rd.env, rfl⟩
    · exact ⟨rd.geo, rd.wf, rd.env, rfl⟩
  have hcall : ((FileCall.write data count).run file).run v =
      (((toInt32 k, data), { file with
        handle := { file.handle with inode := inode' }
        offset := if 0 < toInt32 k then add32 start (ofInt32 (toInt32 k)) else start }), v') := by
    unfold FileCall.run fileWrite
    rw [StateT.run_bind, StateT.run_bind, ← hstart, hrun]
    rfl
  rw [after_of_run hcall]
  have hk32 : k < 2 ^ 32 := lt_of_le_of_lt hk count.isLt
  rw [ofInt32_toInt32 hk32]
  exact {
    agrees := {
      ready := hrd
      own := by rw [hcore]; exact hown
      alloc := by rw [hcore, Core.alloc_congr hw.iused]; exact h.alloc
      inode := by rw [hcore]; exact hinode
      root := fun hc => by
        have hc : file.handle.cached = true := hc
        rw [hv', if_pos hc]
      offset := by
        dsimp only
        split_ifs
        · exact Nat.mod_lt _ (by norm_num)
        · exact hlt }
    serves := by
      have hstart' : start = if file.append then (v.text G n).size else file.offset := by
        rw [hstart, hsize]
      refine ⟨k, hk, rfl, ?_, ?_⟩
      · rw [← hstart', ← htext]
        unfold Vol.text
        rw [hcore]
      · rw [← hstart']
    append := rfl
    cached := rfl
    other := fun hc => by
      rw [hv', hc]
      exact rd.root }

theorem call (c : FileCall) (hf : c.Served (v.text G n).size file.offset) :
    After (c.run file) v fun p v' => Called v G n file c p.1 p.2 v' := by
  cases c with
  | write data count => exact h.write data count
  | read buf count => exact h.read buf count hf
  | seek o => exact h.seek o

end Agreeing

end Agrees

/-- A write of no bytes at the start of the file puts the copy of the inode on disk. -/
theorem Ready.write_nothing {v : Vol} {G : Geo} {r : Inode} {file : File} (rd : Ready v G r)
    (data : Bytes) (h0 : file.offset = 0) (sy : file.handle.inode.Synced)
    (hin : G.IsInode file.handle.inode.ino) :
    After ((FileCall.write data 0).run file) v fun _ v' =>
      v'.core.ino file.handle.inode.ino = file.handle.inode.disk := by
  set start := if file.append then file.handle.inode.size else file.offset with hstart
  have hgrow : file.handle.inode.growTo (add32 start 0) = file.handle.inode := by
    have hle : add32 start 0 ≤ start := Nat.mod_le _ _
    have hlt : start ≤ file.handle.inode.size := by
      rw [hstart]
      split_ifs <;> omega
    unfold Inode.growTo
    rw [if_neg (by omega)]
  have hw : After (ext2Write file.handle.inode data 0 start) v fun _ v' =>
      v'.core.ino file.handle.inode.ino = file.handle.inode.disk := by
    unfold ext2Write
    rw [after_bind, after_get, after_kmalloc rd.env, after_bind]
    unfold DvivonOS.writeLoop
    rw [after_pure]
    dsimp only
    rw [hgrow]
    unfold ext2WriteInode
    rw [after_bind]
    dsimp only
    rw [after_bind, sy.toDisk]
    refine rd.writeInodeRaw hin fun v' _ hc => ?_
    rw [after_pure, after_pure, hc, Core.setIno_ino, Function.update_self]
    exact sy.onDisk
  unfold FileCall.run fileWrite
  rw [after_bind, after_bind, ← hstart]
  refine hw.mono fun p v' hp => ?_
  unfold putBack
  rw [after_bind, after_modify, after_pure, after_pure]
  split_ifs
  · exact hp
  · exact hp

/-! ## Runs -/

section Runs

variable {ι : Type}

/-- The copy of the inode `n` that file `i` has is the one on disk. -/
def Opens.UpToDate (s : Opens ι) (n : ℕ) (i : ι) : Prop :=
  s.inode i = Inode.ofDisk n (s.vol.core.ino n)

/-- A consistent volume with files open on the inode `n`. -/
structure Opens.On (s : Opens ι) (G : Geo) (n : ℕ) : Prop where
  ready : Ready s.vol G s.vol.root
  own : Own G s.vol.core (s.vol.core.Alloc G) s.vol.core.ino
  alloc : s.vol.core.Alloc G n
  ino : ∀ i, (s.inode i).ino = n
  synced : ∀ i, (s.inode i).Synced
  offset : ∀ i, (s.file i).offset < 2 ^ 32

variable [DecidableEq ι]

/-- Each read and each write goes through a file that is up to date, and each read asks for a range
that `file_read` serves. -/
def Opens.InStep (G : Geo) (n : ℕ) : List (ι × FileCall) → Opens ι → Prop
  | [], _ => True
  | (i, c) :: cs, s => (c.UsesInode → s.UpToDate n i) ∧
      c.Served (s.vol.text G n).size (s.file i).offset ∧ Opens.InStep G n cs (s.call i c).2

/-- The calls return what they return through one shared inode, the on-disk inode and the bytes of
the file end up the same, and the results are those of calls on the bytes of one file. -/
structure Opens.AsOne (s : Opens ι) (G : Geo) (n : ℕ) (cs : List (ι × FileCall)) : Prop where
  results : (s.calls cs).1 = ((s.share n).calls cs).1
  inode : (s.calls cs).2.vol.core.ino n = ((s.share n).calls cs).2.vol.core.ino n
  text : (s.calls cs).2.vol.text G n = ((s.share n).calls cs).2.vol.text G n
  serves : ServesAll (fun i => (s.file i).append) cs (s.calls cs).1
    ⟨fun i => (s.file i).offset, s.vol.text G n⟩
    ⟨fun i => ((s.calls cs).2.file i).offset, (s.calls cs).2.vol.text G n⟩

namespace Opens.On

variable {s : Opens ι} {G : Geo} {n : ℕ} {i : ι} {c : FileCall}

omit [DecidableEq ι] in
theorem agrees (h : s.On G n) (hi : s.UpToDate n i) :
    Agrees s.vol G n ((s.file i).withInode (s.inode i)) where
  ready := h.ready
  own := h.own
  alloc := h.alloc
  inode := hi
  root hc := by
    have hc : (s.file i).handle.cached = true := hc
    show (s.file i).handle.deref s.vol = s.vol.root
    unfold Handle.deref
    rw [if_pos hc]
  offset := h.offset i

theorem called (h : s.On G n) (hi : s.UpToDate n i)
    (hf : c.Served (s.vol.text G n).size (s.file i).offset) :
    Called s.vol G n ((s.file i).withInode (s.inode i)) c (s.call i c).1
      ((s.call i c).2.file i) (s.call i c).2.vol := by
  have h1 := (h.agrees hi).call c hf
  unfold Opens.call
  dsimp only
  rw [Function.update_self]
  exact h1

/-- What a call leaves of the files. -/
structure Stepped (s : Opens ι) (G : Geo) (n : ℕ) (i : ι) (c : FileCall) : Prop where
  on : (s.call i c).2.On G n
  serves : c.Serves (s.file i).append (s.vol.text G n) (s.file i).offset (s.call i c).1
    ((s.call i c).2.file i).offset ((s.call i c).2.vol.text G n)
  append : ((s.call i c).2.file i).append = (s.file i).append
  share : (s.share n).call i c = ((s.call i c).1, (s.call i c).2.share n)

section

variable
  (hc : Called s.vol G n ((s.file i).withInode (s.inode i)) c (s.call i c).1 ((s.call i c).2.file i) (s.call i c).2.vol)

include hc

theorem upToDate_call : (s.call i c).2.UpToDate n i := by
  unfold Opens.UpToDate Opens.inode Handle.deref
  split_ifs with hcd
  · rw [← hc.agrees.root hcd]
    exact hc.agrees.inode
  · exact hc.agrees.inode

theorem inode_call (j : ι) :
    (s.call i c).2.inode j = s.inode j ∨
      (s.call i c).2.inode j = Inode.ofDisk n ((s.call i c).2.vol.core.ino n) := by
  have hroot : (s.file i).handle.cached = true →
      (s.call i c).2.vol.root = Inode.ofDisk n ((s.call i c).2.vol.core.ino n) := by
    intro hcd
    rw [← hc.agrees.inode, hc.agrees.root (hc.cached.trans hcd)]
  by_cases hj : j = i
  · rw [hj]
    exact Or.inr (upToDate_call hc)
  have hfile : (s.call i c).2.file j = s.file j := Function.update_of_ne hj _ _
  unfold Opens.inode Handle.deref
  rw [hfile]
  by_cases hjc : (s.file j).handle.cached = true
  · rw [if_pos hjc, if_pos hjc]
    by_cases hic : (s.file i).handle.cached = true
    · exact Or.inr (hroot hic)
    · exact Or.inl (hc.other (Bool.eq_false_iff.mpr hic))
  · rw [if_neg hjc, if_neg hjc]
    exact Or.inl rfl

end

/-- A call through a file that is up to date is the call through the shared inode. -/
theorem stepped (h : s.On G n) (hi : s.UpToDate n i)
    (hf : c.Served (s.vol.text G n).size (s.file i).offset) : Stepped s G n i c := by
  have hc := h.called hi hf
  exact {
    on := {
      ready := hc.agrees.ready
      own := hc.agrees.own
      alloc := hc.agrees.alloc
      ino := fun j => by
        rcases inode_call hc j with hj | hj
        · rw [hj]
          exact h.ino j
        · rw [hj]
          rfl
      synced := fun j => by
        rcases inode_call hc j with hj | hj
        · rw [hj]
          exact h.synced j
        · rw [hj]
          exact synced_ofDisk _ n
      offset := fun j => by
        by_cases hj : j = i
        · rw [hj]
          exact hc.agrees.offset
        · have hfile : (s.call i c).2.file j = s.file j := Function.update_of_ne hj _ _
          rw [hfile]
          exact h.offset j }
    serves := hc.serves
    append := hc.append
    share := by
      have hinode := hc.agrees.inode
      have hfile : (s.share n).file i = (s.file i).withInode (s.inode i) := by
        rw [hi]
        rfl
      unfold Shared.call
      dsimp only
      rw [hfile]
      unfold Opens.call Opens.share at *
      dsimp only at *
      rw [Function.update_self] at hinode
      rw [hinode, Prod.mk.injEq, Shared.mk.injEq]
      refine ⟨rfl, rfl, funext fun j => ?_⟩
      by_cases hj : j = i
      · rw [hj, Function.update_self, Function.update_self]
      · rw [Function.update_of_ne hj, Function.update_of_ne hj]
        rfl }

theorem stepped_seek (h : s.On G n) (o : Fin (2 ^ 32)) : Stepped s G n i (.seek o) := by
  have hself : (s.call i (.seek o)).2.file i =
      { (s.file i).withInode (s.inode i) with offset := o } := Function.update_self _ _ _
  have hother : ∀ j, j ≠ i → (s.call i (.seek o)).2.file j = s.file j := fun j hj =>
    Function.update_of_ne hj _ _
  have hvol : (s.call i (.seek o)).2.vol = s.vol := rfl
  have hinode : ∀ j, (s.call i (.seek o)).2.inode j = s.inode j := by
    intro j
    unfold Opens.inode
    rw [hvol]
    by_cases hj : j = i
    · rw [hj, hself]
      unfold Opens.inode File.withInode Handle.deref
      dsimp only
      split_ifs <;> rfl
    · rw [hother j hj]
  exact {
    on := {
      ready := h.ready
      own := h.own
      alloc := h.alloc
      ino := fun j => by rw [hinode]; exact h.ino j
      synced := fun j => by rw [hinode]; exact h.synced j
      offset := fun j => by
        by_cases hj : j = i
        · rw [hj, hself]
          exact o.isLt
        · rw [hother j hj]
          exact h.offset j }
    serves := ⟨rfl, rfl, by rw [hself]⟩
    append := by rw [hself]; rfl
    share := by
      refine Prod.ext rfl ?_
      show Shared.mk _ _ = Shared.mk _ _
      rw [Shared.mk.injEq]
      refine ⟨rfl, funext fun j => ?_⟩
      by_cases hj : j = i
      · rw [hj, Function.update_self, hself]
        rfl
      · rw [Function.update_of_ne hj, hother j hj]
        rfl }

theorem step (h : s.On G n) (hi : c.UsesInode → s.UpToDate n i)
    (hf : c.Served (s.vol.text G n).size (s.file i).offset) : Stepped s G n i c := by
  cases c with
  | write data count => exact h.stepped (hi trivial) hf
  | read buf count => exact h.stepped (hi trivial) hf
  | seek o => exact h.stepped_seek o

theorem calls (cs : List (ι × FileCall)) : ∀ {s : Opens ι}, s.On G n → s.InStep G n cs →
    (s.calls cs).2.On G n ∧
      (s.share n).calls cs = ((s.calls cs).1, (s.calls cs).2.share n) ∧
      ServesAll (fun i => (s.file i).append) cs (s.calls cs).1
        ⟨fun i => (s.file i).offset, s.vol.text G n⟩
        ⟨fun i => ((s.calls cs).2.file i).offset, (s.calls cs).2.vol.text G n⟩ := by
  induction cs with
  | nil => intro s h _; exact ⟨h, rfl, .nil _⟩
  | cons p cs ih =>
    obtain ⟨i, c⟩ := p
    intro s h hin
    obtain ⟨hi, hf, hin⟩ := hin
    have hc := h.step hi hf
    obtain ⟨h1, h2, h3⟩ := ih hc.on hin
    have hother : ∀ j, j ≠ i → (s.call i c).2.file j = s.file j := fun j hj =>
      Function.update_of_ne hj _ _
    have happ : (fun j => ((s.call i c).2.file j).append) = fun j => (s.file j).append := by
      funext j
      by_cases hj : j = i
      · rw [hj, hc.append]
      · rw [hother j hj]
    have hpos : (fun j => ((s.call i c).2.file j).offset) =
        Function.update (fun j => (s.file j).offset) i ((s.call i c).2.file i).offset := by
      funext j
      by_cases hj : j = i
      · rw [hj, Function.update_self]
      · rw [Function.update_of_ne hj, hother j hj]
    rw [happ, hpos] at h3
    refine ⟨h1, ?_, .cons hc.serves h3⟩
    unfold Shared.calls
    rw [hc.share]
    dsimp only
    rw [h2]
    rfl

/-- After a seek to the start and a write of no bytes the inode of the file is on disk. -/
theorem write_nothing (h : s.On G n) (i : ι) (data : Bytes) :
    (s.calls [(i, .seek 0), (i, .write data 0)]).2.vol.core.ino n = (s.inode i).disk := by
  set s' := (s.call i (.seek 0)).2 with hs'
  have hon : s'.On G n := (h.stepped_seek 0).on
  have hself : s'.file i = { (s.file i).withInode (s.inode i) with offset := 0 } :=
    Function.update_self _ _ _
  have hinode : s'.inode i = s.inode i := by
    unfold Opens.inode
    rw [hself]
    unfold Opens.inode File.withInode Handle.deref
    dsimp only
    split_ifs <;> rfl
  have hin : G.IsInode (s'.inode i).ino := by
    rw [hon.ino i]
    exact hon.alloc.1
  have hw := @Ready.write_nothing _ _ _ ((s'.file i).withInode (s'.inode i)) hon.ready data
    (by rw [hself]; rfl) (hon.synced i) hin
  rw [← hinode, ← hon.ino i]
  exact hw

theorem share_write_nothing (h : s.On G n) (i : ι) (data : Bytes) :
    ((s.share n).calls [(i, .seek 0), (i, .write data 0)]).2.vol.core.ino n =
      s.vol.core.ino n := by
  set t := ((s.share n).call i (.seek 0)).2 with ht
  have hself : t.file i = { (s.file i).withInode (Inode.ofDisk n (s.vol.core.ino n)) with
      offset := 0 } := by
    show (File.withInode (Function.update (s.share n).file i _ i) _) = _
    rw [Function.update_self]
    rfl
  have hw := @Ready.write_nothing _ _ _ (t.file i) h.ready data (by rw [hself])
    (by rw [hself]; exact synced_ofDisk _ n) (by rw [hself]; exact h.alloc.1)
  have hino : (t.file i).handle.inode = Inode.ofDisk n (s.vol.core.ino n) := by rw [hself]; rfl
  rw [hino] at hw
  exact hw

end Opens.On

/-- **Several open files on one inode.** As long as each call goes through a file whose inode is up
to date, and the reads ask for ranges that `file_read` serves, the calls are those on one file. An
inode that is out of date at the end of such a run breaks this with the next write. -/
theorem open_files_as_one {s : Opens ι} {G : Geo} {n : ℕ} (h : s.On G n) (cs : List (ι × FileCall))
    (hin : s.InStep G n cs) :
    s.AsOne G n cs ∧ ∀ i, ¬ (s.calls cs).2.UpToDate n i → ∀ data,
      ¬ s.AsOne G n (cs ++ [(i, .seek 0), (i, .write data 0)]) := by
  obtain ⟨hon, hshare, hserves⟩ := Opens.On.calls cs h hin
  refine ⟨⟨?_, ?_, ?_, hserves⟩, fun i hi data has => hi ?_⟩
  · rw [hshare]
  · rw [hshare]
    rfl
  · rw [hshare]
    rfl
  · have hino := has.inode
    rw [Opens.calls_append, Shared.calls_append, hshare] at hino
    dsimp only at hino
    rw [hon.write_nothing, hon.share_write_nothing] at hino
    unfold Opens.UpToDate
    rw [← hino, ← hon.ino i]
    exact (hon.synced i).fields.symm

end Runs

/-! ## Two files on the small volume -/

/-- The file of the small volume opened twice. -/
noncomputable def openedTwice : Opens Bool := ⟨fileVol, fun _ => ⟨⟨openFile, false⟩, false, 0⟩⟩

theorem fileOpen_openedTwice (i : Bool) :
    (fileOpen [47, 97] false).run fileVol = (some (openedTwice.file i), fileVol) := by
  have hfind : ((ext2FindDirEntry fileVol.root [97]).run fileVol).1 =
      some ⟨11, 1000, 1, [97]⟩ := by decide +kernel
  have hfound : fileVol.found sampleVol.geo fileVol.root [97] = some ⟨11, 1000, 1, [97]⟩ := by
    rw [← hfind, fileVol_opened.run_find]
  have h : After (fileOpen [47, 97] false) fileVol fun a v =>
      a = some (openedTwice.file i) ∧ v = fileVol := by
    have hcomp : components 2 [47, 97] = [[97]] := by decide
    unfold fileOpen pathLookup
    rw [after_bind, if_neg (by decide), after_bind, after_get]
    show After (lookupAll (components 2 [47, 97]) ⟨fileVol.root, true⟩) fileVol _
    rw [hcomp]
    unfold lookupAll
    rw [after_bind]
    refine (fileVol_ready.lookup fileVol_opened.own fileVol_opened.alloc fileVol_opened.disk
      fun de hde => ?_).mpr ?_
    · rw [hfound] at hde
      rw [← Option.some.inj hde]
      decide
    · rw [hfound, Option.map_some]
      unfold lookupAll
      dsimp only
      rw [after_pure]
      dsimp only
      rw [after_bind, after_kmallocOk fileVol_ready.env]
      exact ⟨rfl, rfl⟩
  exact Prod.ext h.1 h.2

theorem openedTwice_on : openedTwice.On sampleVol.geo 11 where
  ready := fileVol_ready
  own := openFile_opened.own
  alloc := openFile_opened.alloc
  ino _ := rfl
  synced _ := synced_ofDisk _ _
  offset _ := by norm_num [openedTwice]

/-- One file is moved, the other writes and reads on. -/
theorem open_files_as_one_twice :
    openedTwice.AsOne sampleVol.geo 11 [(true, .seek 1),
      (false, .write (Bytes.ofList [120, 121]) 2), (false, .read Bytes.zero 1)] := by
  have hon := (openedTwice_on.stepped_seek (i := true) 1).on
  have hup : (openedTwice.call true (.seek 1)).2.UpToDate 11 false := rfl
  have hwrite := hon.called (c := .write (Bytes.ofList [120, 121]) 2) hup trivial
  have hpos : (((openedTwice.call true (.seek 1)).2.call false
      (.write (Bytes.ofList [120, 121]) 2)).2.file false).offset = 2 := by
    decide +kernel
  refine (open_files_as_one openedTwice_on [(true, .seek 1),
    (false, .write (Bytes.ofList [120, 121]) 2), (false, .read Bytes.zero 1)]
    ⟨fun h => h.elim, trivial, fun _ => hup, trivial, fun _ => Opens.On.upToDate_call hwrite,
      ?_, trivial⟩).1
  rw [hpos]
  exact ⟨Or.inr ⟨by norm_num, lt_of_le_of_lt (Nat.min_le_left _ _) (by norm_num)⟩, trivial⟩

/-- One file writes a byte at offset 1024; the other reads there, and then writes one at the
start. -/
def writesApart : List (Bool × FileCall) :=
  [(false, .seek 1024), (false, .write (Bytes.ofList [120]) 1), (true, .seek 1024),
    (true, .read Bytes.zero 1), (true, .seek 0), (true, .write (Bytes.ofList [121]) 1)]

/-- The read does not see the byte, and the second write loses it: the size on disk is the old one
again. -/
theorem stale_inode_loses_write :
    (∀ i, (fileOpen [47, 97] false).run fileVol = (some (openedTwice.file i), fileVol)) ∧
      (openedTwice.calls writesApart).1.map Prod.fst = [1024, 1, 1024, 0, 0, 1] ∧
      ((openedTwice.share 11).calls writesApart).1.map Prod.fst = [1024, 1, 1024, 1, 0, 1] ∧
      iSize ((openedTwice.calls writesApart).2.vol.core.ino 11) = 3 ∧
      iSize (((openedTwice.share 11).calls writesApart).2.vol.core.ino 11) = 1025 ∧
      ¬ openedTwice.AsOne sampleVol.geo 11 writesApart := by
  have h1 : (openedTwice.calls writesApart).1.map Prod.fst = [1024, 1, 1024, 0, 0, 1] := by
    decide +kernel
  have h2 : ((openedTwice.share 11).calls writesApart).1.map Prod.fst =
      [1024, 1, 1024, 1, 0, 1] := by
    decide +kernel
  refine ⟨fileOpen_openedTwice, h1, h2, by decide +kernel, by decide +kernel, fun h => ?_⟩
  rw [h.results, h2] at h1
  exact absurd h1 (by decide)

end DvivonOS
