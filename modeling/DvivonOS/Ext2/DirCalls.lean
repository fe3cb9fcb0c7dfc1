import DvivonOS.Ext2.DirEntries

/-!
# Calls on a directory

A directory under `ext2_add_dir_entry`, `ext2_remove_dir_entry` and `ext2_find_dir_entry` is a list
of entries. `ListDir` is the invariant: a consistent volume, a size in whole blocks and tiled
blocks. Every call keeps it (`ListDir.call`), and every call does on the list what it says
(`DirCall.Lists`), except one: a new block that brings the size to `2 ^ 32` makes it wrap around to
zero, and the directory is empty.
-/

namespace DvivonOS

open Function

inductive DirCall
  | add (name : Name) (ino type : ℕ)
  | remove (name : Name)

namespace DirCall

def Ok : DirCall → Prop
  | add name ino type => 1 ≤ name.length ∧ name.length ≤ 255 ∧ ino ≠ 0 ∧ ino < 2 ^ 32 ∧ type < 256
  | remove name => 1 ≤ name.length ∧ name.length ≤ 255

def exec (dir : Inode) : DirCall → FsM (ℤ × Inode)
  | add name ino type => ext2AddDirEntry dir name ino type
  | remove name => do return (← ext2RemoveDirEntry dir name, dir)

/-- What a call with the result `ret` does to the list of entries. -/
def Lists (ret : ℤ) (es es' : List Entry) : DirCall → Prop
  | add name ino type =>
    (ret = 0 ∧ ∃ l₁ l₂, es = l₁ ++ l₂ ∧ es' = l₁ ++ ⟨name, ino, type⟩ :: l₂) ∨ (ret ≠ 0 ∧ es' = es)
  | remove name =>
    (ret = 0 ∧ (∃ x ∈ es, x.name = name) ∧ es' = es.eraseP (·.name = name)) ∨
      (ret ≠ 0 ∧ (∀ x ∈ es, x.name ≠ name) ∧ es' = es)

/-- The call does not bring the size of the directory to `2 ^ 32`: some block has room for the entry,
or the size with one more block stays below. -/
def Fits (G : Geo) (v : Vol) (dir : Inode) : DirCall → Prop
  | add name ino type => addEntry G (v.core.file dir.disk G) dir.size name ino type ≠ none ∨
      dir.size + G.bs < 2 ^ 32
  | remove _ => True

end DirCall

/-- The live entries of the open directory. -/
noncomputable def Vol.entries (v : Vol) (G : Geo) (dir : Inode) : List Entry :=
  dirEntries G (v.core.file dir.disk G) dir.size

/-- An open directory in a consistent volume: its size is a number of blocks, and its blocks are
tiled by records. -/
structure ListDir (v : Vol) (G : Geo) (e : ℕ → Bytes) (dir : Inode) : Prop
    extends Opened v G e dir where
  isDir : fsIsDir dir.mode = true
  whole : G.bs ∣ dir.size
  size_lt : dir.size < 2 ^ 32
  tiled : DirTiled G (v.core.file dir.disk G) dir.size

theorem Core.alloc_congr {c c' : Core} {G : Geo} (h : c'.iused = c.iused) :
    c'.Alloc G = c.Alloc G := by
  funext n
  unfold Core.Alloc
  rw [h]

theorem Opened.of_upd {v v' : Vol} {G : Geo} {e : ℕ → Bytes} {dir : Inode}
    {F : ℕ → Option Bytes} (op : Opened v G e dir) (dir' : Inode) (rd' : Ready v' G v.root)
    (h : Upd G (v.core.Alloc G) dir.ino v.core e v'.core dir'.disk F) (hi : dir'.ino = dir.ino) :
    Opened v' G (update e dir.ino dir'.disk) dir' where
  ready := ⟨rd'.geo, rd'.wf, rd'.env, rfl⟩
  own := by rw [Core.alloc_congr h.iused]; exact h.own
  alloc := by rw [Core.alloc_congr h.iused, hi]; exact op.alloc
  disk := by rw [hi, update_self]

namespace ListDir

variable {v : Vol} {G : Geo} {e : ℕ → Bytes} {dir : Inode}

theorem find (h : ListDir v G e dir) (name : Name) :
    (((ext2FindDirEntry dir name).run v).1.map DirEntry.entry =
      (v.entries G dir).find? (·.name = name)) ∧ ((ext2FindDirEntry dir name).run v).2 = v := by
  have hx : MapOk G v.core dir.disk := h.disk ▸ h.own.mapOk h.alloc
  have : After (ext2FindDirEntry dir name) v fun o v' =>
      o.map DirEntry.entry = (v.entries G dir).find? (·.name = name) ∧ v' = v := by
    rw [h.ready.findDirEntry hx, if_pos h.isDir]
    exact ⟨h.tiled.findEntry, rfl⟩
  exact this

theorem store (h : ListDir v G e dir) {l : ℕ} {buf : Bytes} (hl : l < dirBlocks dir.size G.bs)
    (hF : v.core.file dir.disk G l ≠ none)
    (ht : ∀ F', (∀ i < dirBlocks dir.size G.bs,
      F' i = update (v.core.file dir.disk G) l (some buf) i) → DirTiled G F' dir.size) :
    (∃ e', ListDir (v.write (v.core.fileBlock dir.disk G l) buf) G e' dir) ∧
      ∀ i < dirBlocks dir.size G.bs,
        (v.write (v.core.fileBlock dir.disk G l) buf).core.file dir.disk G i =
          update (v.core.file dir.disk G) l (some buf) i := by
  have hle := h.ready.wf.dirBlocks_le dir.size
  obtain ⟨rd', hupd⟩ := h.ready.storeBlock h.own h.alloc h.disk (by omega) hF buf
  have hself := fun i (hi : i < dirBlocks dir.size G.bs) => hupd.self i (by omega)
  exact ⟨⟨_, h.toOpened.of_upd dir rd' hupd rfl, h.isDir, h.whole, h.size_lt, ht _ hself⟩, hself⟩

theorem grown (h : ListDir v G e dir) {v' : Vol} {dir' : Inode} {name : Name} {ino type : ℕ}
    (h0 : ino ≠ 0) (hi : ino < 2 ^ 32) (hty : type < 256) (hn : name.length < 256)
    (rd' : Ready v' G v.root)
    (hg : Grown G (v.core.Alloc G) v e dir (freshDirBlock G.bs name ino type) dir' v') :
    (∃ e', ListDir v' G e' dir') ∧
      (dir.size + G.bs < 2 ^ 32 → v'.entries G dir' = v.entries G dir ++ [⟨name, ino, type⟩]) ∧
      (¬ dir.size + G.bs < 2 ^ 32 → v'.entries G dir' = []) := by
  have wf := h.ready.wf
  obtain ⟨hw, hlt, hno, hwrap⟩ := wf.grow_size h.whole h.size_lt
  rw [← hg.size] at hw hlt hno hwrap
  have hino : dir'.ino = dir.ino := by rw [hg.same]
  have hmode : dir'.mode = dir.mode := by rw [hg.same]
  have hfresh := wf.fresh hi hty hn
  have htiled : DirTiled G (v'.core.file dir'.disk G) dir'.size := by
    by_cases hfit : dir.size + G.bs < 2 ^ 32
    · rw [hno hfit]
      exact h.tiled.grow wf h.whole hfit ⟨_, hfresh⟩ hg.self
    · rw [hwrap hfit]
      exact DirTiled.zero wf _
  refine ⟨⟨update e dir.ino dir'.disk, ⟨⟨rd'.geo, rd'.wf, rd'.env, rfl⟩, ?_, ?_, ?_⟩,
    hmode ▸ h.isDir, hw, hlt, htiled⟩, fun hfit => ?_, fun hfit => ?_⟩
  · rw [Core.alloc_congr hg.iused]
    exact hg.own
  · rw [Core.alloc_congr hg.iused, hino]
    exact h.alloc
  · rw [hino, update_self]
  · unfold Vol.entries
    rw [hno hfit, dirEntries_grow wf h.whole hfit hg.self, hfresh.entries]
    congr 1
    exact List.filterMap_cons_some (if_neg h0)
  · unfold Vol.entries
    rw [hwrap hfit]
    exact dirEntries_zero wf _

/-- **One call.** The directory stays a list of entries. A call that fails leaves the list as it is,
and one that succeeds does on the list what it says exactly if it fits. -/
theorem call (h : ListDir v G e dir) {c : DirCall} (hc : c.Ok) {ret : ℤ} {dir' : Inode} {v' : Vol}
    (hrun : (c.exec dir).run v = ((ret, dir'), v')) :
    (∃ e', ListDir v' G e' dir') ∧
      (ret ≠ 0 → c.Lists ret (v.entries G dir) (v'.entries G dir')) ∧
      (ret = 0 → (c.Lists ret (v.entries G dir) (v'.entries G dir') ↔ c.Fits G v dir)) := by
  have wf := h.ready.wf
  cases c with
  | remove name =>
    have hx : MapOk G v.core dir.disk := h.disk ▸ h.own.mapOk h.alloc
    have : After (DirCall.exec dir (.remove name)) v fun p v' =>
        (∃ e', ListDir v' G e' p.2) ∧
          DirCall.Lists p.1 (v.entries G dir) (v'.entries G p.2) (.remove name) := by
      unfold DirCall.exec
      rw [after_bind, h.ready.removeDirEntry hx]
      cases hr : removeEntry G (v.core.file dir.disk G) dir.size name with
      | none =>
        exact ⟨⟨e, h⟩, Or.inr ⟨(by decide : (-1 : ℤ) ≠ 0), h.tiled.removeEntry_none wf hr, rfl⟩⟩
      | some lb =>
        obtain ⟨l, buf⟩ := lb
        obtain ⟨hl, hF, hex, hF'⟩ := h.tiled.removeEntry wf hr
        obtain ⟨hld, hself⟩ := h.store hl hF fun F' hs => (hF' F' hs).1
        exact ⟨hld, Or.inl ⟨rfl, hex, (hF' _ hself).2⟩⟩
    obtain ⟨h1, h2⟩ := this.of_run hrun
    exact ⟨h1, fun _ => h2, fun _ => iff_of_true h2 trivial⟩
  | add name ino type =>
    obtain ⟨-, hlen, h0, hi, hty⟩ := hc
    have : After (DirCall.exec dir (.add name ino type)) v fun p v' =>
        (∃ e', ListDir v' G e' p.2) ∧
          (p.1 ≠ 0 → DirCall.Lists p.1 (v.entries G dir) (v'.entries G p.2) (.add name ino type)) ∧
          (p.1 = 0 → (DirCall.Lists p.1 (v.entries G dir) (v'.entries G p.2) (.add name ino type) ↔
            (DirCall.add name ino type).Fits G v dir)) := by
      refine h.ready.addDirEntry h.own h.alloc h.alloc.1 h.disk h0 hlen (fun l buf ha => ?_)
        (fun _ x v' rd' hid => ?_) fun ha dir' v' rd' hg => ?_
      · obtain ⟨hl, hF, l₁, l₂, hes, hF'⟩ := h.tiled.addEntry h0 hi hty (by omega) ha
        obtain ⟨hld, hself⟩ := h.store hl hF fun F' hs => (hF' F' hs).1
        refine ⟨hld, fun hne => absurd rfl hne, fun _ =>
          iff_of_true (Or.inl ⟨rfl, l₁, l₂, hes, (hF' _ hself).2⟩) (Or.inl ?_)⟩
        rw [ha]
        simp
      · have hself : ∀ i < dirBlocks dir.size G.bs,
            v'.core.file x G i = v.core.file dir.disk G i := fun i hi => by
          rw [← h.disk]
          exact hid.upd.self i (lt_of_lt_of_le hi (wf.dirBlocks_le _))
        refine ⟨⟨_, h.toOpened.of_upd { dir with disk := x } rd' hid.upd rfl, h.isDir,
          h.whole, h.size_lt, h.tiled.congr hself⟩, fun hne => Or.inr ⟨hne, ?_⟩, fun he => ?_⟩
        · exact dirEntries_congr hself
        · cases he
      · obtain ⟨hld, hfit, hwrap⟩ := h.grown h0 hi hty (by omega) rd' hg
        refine ⟨hld, fun hne => absurd rfl hne, fun _ => ?_⟩
        by_cases hlt : dir.size + G.bs < 2 ^ 32
        · exact iff_of_true (Or.inl ⟨rfl, _, [], (List.append_nil _).symm, hfit hlt⟩) (Or.inr hlt)
        · refine iff_of_false ?_ fun hor => hor.elim (· ha) hlt
          rintro (⟨-, l₁, l₂, -, h2⟩ | ⟨h1, -⟩)
          · rw [hwrap hlt] at h2
            simp at h2
          · exact h1 rfl
    exact this.of_run hrun

end ListDir

/-- A call on the open directory, in any volume. -/
def DirStep (s s' : Vol × Inode) : Prop :=
  ∃ (c : DirCall) (ret : ℤ), c.Ok ∧ (c.exec s.2).run s.1 = ((ret, s'.2), s'.1)

/-- **Directories are lists.** In every state reached by additions and removals the blocks of the
directory are tiled, `ext2_find_dir_entry` finds the first live entry with the name, and the next
call does what it should: if it fails, it changes nothing, and if it succeeds, it inserts one entry or
erases the first entry with the name, exactly if it does not bring the size of the directory to
`2 ^ 32`. -/
theorem dir_calls_as_list {v v' : Vol} {G : Geo} {e : ℕ → Bytes} {dir dir' : Inode}
    (h : ListDir v G e dir) (hrun : Relation.ReflTransGen DirStep (v, dir) (v', dir')) :
    (G.bs ∣ dir'.size ∧ DirTiled G (v'.core.file dir'.disk G) dir'.size) ∧
      (∀ name, ((ext2FindDirEntry dir' name).run v').1.map DirEntry.entry =
        (v'.entries G dir').find? (·.name = name)) ∧
      ∀ c : DirCall, c.Ok → ∀ ret dir'' v'', (c.exec dir').run v' = ((ret, dir''), v'') →
        (ret ≠ 0 → c.Lists ret (v'.entries G dir') (v''.entries G dir'')) ∧
        (ret = 0 → (c.Lists ret (v'.entries G dir') (v''.entries G dir'') ↔ c.Fits G v' dir')) := by
  have hinv : ∀ s, Relation.ReflTransGen DirStep (v, dir) s → ∃ e', ListDir s.1 G e' s.2 := by
    intro s hs
    induction hs with
    | refl => exact ⟨e, h⟩
    | tail _ hstep ih =>
      obtain ⟨e', ih⟩ := ih
      obtain ⟨c, ret, hc, hr⟩ := hstep
      exact (ih.call hc hr).1
  obtain ⟨e', h'⟩ := hinv _ hrun
  exact ⟨⟨h'.whole, h'.tiled⟩, fun name => (h'.find name).1,
    fun c hc ret dir'' v'' hr => (h'.call hc hr).2⟩

theorem fileVol_rootDir : dirBlocks fileVol.root.size sampleVol.geo.bs = 1 ∧
    fileVol.core.fileBlock fileVol.root.disk sampleVol.geo 0 = 7 ∧
    fsIsDir fileVol.root.mode = true ∧ fileVol.root.size = 1024 := by
  decide +kernel

theorem fileVol_rootBlock :
    fileVol.core.file fileVol.root.disk sampleVol.geo 0 = some (fileDisk 7) := by
  have h7 := fileVol_rootDir.2.1
  have hdata : fileVol.core.data 7 = fileDisk 7 :=
    if_neg fun h => by have := sampleVol_meta h; omega
  rw [file_eq (by rw [h7]; decide), h7, hdata]

theorem fileVol_listDir : ListDir fileVol sampleVol.geo fileVol.core.ino fileVol.root := by
  obtain ⟨hn, -, hdir, hsize⟩ := fileVol_rootDir
  refine ⟨fileVol_opened, hdir, hsize ▸ dvd_rfl, hsize ▸ by norm_num, ?_⟩
  intro l hl buf hF
  obtain rfl : l = 0 := by omega
  rw [fileVol_rootBlock] at hF
  obtain rfl := Option.some.inj hF
  have hnew : Tiled 1024 (newDirBlock 1024 2 2) :=
    ⟨_, sampleVol_wf.newDir (by norm_num) (by norm_num)⟩
  have hsome : (addInBlock (newDirBlock 1024 2 2) 1024 [97] 11 ext2FtRegFile 1024 0).isSome := by
    decide +kernel
  obtain ⟨buf, hbuf⟩ := Option.isSome_iff_exists.mp hsome
  have h7' : fileDisk 7 =
      (addInBlock (newDirBlock 1024 2 2) 1024 [97] 11 ext2FtRegFile 1024 0).getD Bytes.zero := rfl
  rw [h7', hbuf]
  exact (hnew.add (by decide) (by decide) (by decide) (by decide) hbuf).1

def addB : (ℤ × Inode) × Vol := (DirCall.exec fileVol.root (.add [98] 12 1)).run fileVol

theorem dir_calls_as_list_file :
    (DirCall.add [98] 12 1).Lists 0 (fileVol.entries sampleVol.geo fileVol.root)
      (addB.2.entries sampleVol.geo addB.1.2) := by
  have hret : addB.1.1 = 0 := by decide +kernel
  have hrun : (DirCall.exec fileVol.root (.add [98] 12 1)).run fileVol =
      ((0, addB.1.2), addB.2) := Prod.ext (Prod.ext hret rfl) rfl
  refine (((dir_calls_as_list fileVol_listDir .refl).2.2 (.add [98] 12 1)
    ⟨by decide, by decide, by decide, by decide, by decide⟩ 0 _ _ hrun).2 rfl).mpr ?_
  exact Or.inr (by decide +kernel)

/-! ### A directory of the largest size -/

/-- A directory block of 4096 bytes without room for a name of 255 bytes: `.` and `..` in records
of 256 bytes, and seven names of 255 bytes in records of 512 bytes. -/
@[irreducible] def fullBlock : Bytes := fun i =>
  if i < 512 then
    match i % 256 with
    | 0 => 2
    | 5 => 1
    | 6 => if i < 256 then 1 else 2
    | 7 => 2
    | 8 => 46
    | 9 => if i < 256 then 0 else 46
    | _ => 0
  else
    match i % 512 with
    | 0 => 11
    | 5 => 2
    | 6 => 255
    | 7 => 1
    | o => if o < 8 then 0 else 97

def wideSb : Bytes :=
  ((((((Bytes.zero.put32 0 32).put32 4 20).put32 12 14).put32 16 21).put32 24 2).put32 32 32).put32
    40 32

def wideGd : Bytes :=
  (((((Bytes.zero.put32 0 2).put32 4 3).put32 8 4).put16 12 14).put16 14 21).put16 16 1

/-- A root directory of `2 ^ 32 - 4096` bytes, of which the first block is there. -/
def wideRoot : Bytes := (newDirInode 0o755 4096 5).put32 4 (2 ^ 32 - 4096)

/-- Blocks 0 to 5 and inodes 1 to 11 are used. -/
def wideDisk (b : ℕ) : Bytes :=
  match b with
  | 0 => wideSb
  | 1 => wideGd
  | 2 => Bytes.zero.put8 0 0x3F
  | 3 => (Bytes.zero.put8 0 0xFF).put8 1 0x07
  | 4 => Bytes.zero.copy 128 wideRoot 128
  | 5 => fullBlock
  | _ => Bytes.zero

/-- One group of 20 blocks of 4096 bytes and 32 inodes. -/
def wideVol : Vol where
  disk := wideDisk
  sb := wideSb
  gd := fun _ => wideGd
  blockSize := 4096
  groupsCount := 1
  root := Inode.ofDisk 2 wideRoot
  env := Env.ok

theorem wideVol_geo :
    wideVol.geo = ⟨4096, 0, 20, 32, 32, 1, 128, fun _ => 2, fun _ => 3, fun _ => 4⟩ := rfl

theorem wideVol_wf : wideVol.geo.Wf := by
  rw [wideVol_geo]
  refine ⟨by decide, by decide, by decide, by decide, by decide, by decide, by decide, by decide,
    by decide, by decide, by decide, by decide, by decide, ?_, ?_⟩
  · intro a b ha hb h
    cases a <;> cases b <;> simp only [Geo.Valid, Geo.addr, Geo.gdpb, Geo.ipb] at ha hb h ⊢ <;>
      first | rfl | omega | (congr 1 <;> omega)
  · intro a ha
    unfold Geo.InRange
    cases a <;> simp only [Geo.Valid, Geo.addr, Geo.gdpb, Geo.ipb] at ha ⊢ <;> omega

theorem wideVol_meta {b : ℕ} (h : wideVol.geo.Meta b) : b < 5 := by
  obtain ⟨a, ha, rfl⟩ := h
  rw [wideVol_geo] at ha ⊢
  cases a <;> simp only [Geo.Valid, Geo.addr, Geo.gdpb, Geo.ipb] at ha ⊢ <;> omega

theorem wideVol_slots : (∀ n < 33, ∀ k < 15, iBlock (wideVol.core.ino n) k =
    if n = 2 ∧ k = 0 then 5 else 0) ∧ (∀ b < 6, wideVol.core.used b = true) ∧
    wideVol.core.iused 2 = true := by
  decide +kernel

theorem wideVol_root : wideVol.core.ino 2 = wideVol.root.disk :=
  slot_copy fun _ h => (Bytes.put32_of_not_mem _ _ (by omega)).trans (newDirInode_zero _ _ _ h)

theorem wideVol_opened : Opened wideVol wideVol.geo wideVol.core.ino wideVol.root := by
  have hn : ∀ {n}, wideVol.core.Alloc wideVol.geo n → n < 33 := fun h => Nat.lt_succ_of_le h.1.2
  obtain ⟨hslots, hused, hroot⟩ := wideVol_slots
  refine ⟨⟨rfl, wideVol_wf, rfl, rfl⟩, Own.of_direct (fun b hb => ?_) (fun n k h h12 h15 => ?_)
    (fun n k h h12 h0 => ?_) fun n k n' k' h h' h12 h12' h0 he => ?_,
    ⟨by decide, hroot⟩, wideVol_root⟩
  · exact hused b (by have := wideVol_meta hb; omega)
  · rw [hslots n (hn h) k h15, if_neg (by omega)]
  · rw [hslots n (hn h) k (by omega)] at h0 ⊢
    split_ifs at h0 ⊢ with h1
    · exact ⟨by decide, fun h => by have := wideVol_meta h; omega, hused 5 (by omega)⟩
    · exact absurd rfl h0
  · rw [hslots n (hn h) k (by omega)] at h0 he
    rw [hslots n' (hn h') k' (by omega)] at he
    split_ifs at h0 he with h1 h2 <;> omega

theorem wideVol_file (l : ℕ) : wideVol.core.file wideVol.root.disk wideVol.geo l =
    if l = 0 then some fullBlock else none := by
  have hslot : ∀ k < 15, iBlock wideVol.root.disk k = if k = 0 then 5 else 0 := fun k hk => by
    rw [← wideVol_root, wideVol_slots.1 2 (by norm_num) k hk]
    exact if_congr (and_iff_right rfl) rfl rfl
  by_cases hl : l = 0
  · have h5 : wideVol.core.fileBlock wideVol.root.disk wideVol.geo 0 = 5 := hslot 0 (by norm_num)
    have hdata : wideVol.core.data 5 = fullBlock :=
      if_neg fun h => by have := wideVol_meta h; omega
    rw [if_pos hl, hl, file_eq (by rw [h5]; decide), h5, hdata]
  · rw [if_neg hl]
    refine file_eq_none (walk_of_root_eq_zero ((hslot _ (Geo.place_fst_lt l)).trans
      (if_neg fun h => hl ?_)) _)
    unfold Geo.place at h
    split_ifs at h
    exact h

theorem wideVol_size : wideVol.root.size = 2 ^ 32 - 4096 :=
  Bytes.get32_put32_of_lt _ 4 (by norm_num)

def longName : Name := List.replicate 255 122

def addZ : (ℤ × Inode) × Vol := (DirCall.exec wideVol.root (.add longName 11 1)).run wideVol

/-- The directory has no room, and its new block brings the size to `2 ^ 32`: the call succeeds, and
all entries are gone. -/
theorem dir_size_wraps : addZ.1.1 = 0 ∧ addZ.2.entries wideVol.geo addZ.1.2 = [] ∧
    (wideVol.entries wideVol.geo wideVol.root).length = 9 ∧
    ¬ (DirCall.add longName 11 1).Lists addZ.1.1 (wideVol.entries wideVol.geo wideVol.root)
      (addZ.2.entries wideVol.geo addZ.1.2) := by
  have hx : MapOk wideVol.geo wideVol.core wideVol.root.disk :=
    wideVol_opened.disk ▸ wideVol_opened.own.mapOk wideVol_opened.alloc
  have hfull : addInBlock fullBlock 4096 longName 11 1 4096 0 = none := by decide +kernel
  have hroom : addEntry wideVol.geo (wideVol.core.file wideVol.root.disk wideVol.geo)
      wideVol.root.size longName 11 1 = none := by
    refine (scan_none _ _).mpr fun i _ _ => ?_
    rw [wideVol_file]
    split_ifs
    · exact hfull
    · rfl
  have hrun : addZ =
      (addFreshBlock wideVol.root longName 11 1 wideVol.geo.bs 1048575).run wideVol := by
    have hblocks : dirBlocks wideVol.root.size wideVol.geo.bs = 1048575 := by
      rw [wideVol_size]
      decide
    have hlen : longName.length ≤ 255 := List.length_replicate.le
    refine run_eq_of_after fun Q => ?_
    show After (ext2AddDirEntry wideVol.root longName 11 1) wideVol Q ↔ _
    rw [wideVol_opened.ready.addDirEntry_iff hx (by decide) hlen, hroom,
      Option.elim_none, hblocks]
  have hret : addZ.1.1 = 0 := by
    rw [hrun]
    decide +kernel
  have hsize : addZ.1.2.size = 0 := by
    rw [hrun]
    decide +kernel
  have hes : addZ.2.entries wideVol.geo addZ.1.2 = [] := by
    unfold Vol.entries
    rw [hsize]
    exact dirEntries_zero wideVol_wf _
  refine ⟨hret, hes, ?_, ?_⟩
  · have hpos : 0 < dirBlocks wideVol.root.size wideVol.geo.bs := by
      rw [wideVol_size]
      decide
    have hfirst : (blockEntries 4096 fullBlock).length = 9 := by decide +kernel
    have hholes : ∀ n : ℕ, (List.range n).flatMap (fun i =>
        (wideVol.core.file wideVol.root.disk wideVol.geo (0 + 1 + i)).elim []
          (blockEntries wideVol.geo.bs)) = [] :=
      fun n => List.flatMap_eq_nil_iff.mpr fun i _ => by
        rw [wideVol_file, if_neg (by omega)]
        rfl
    unfold Vol.entries dirEntries
    rw [flatMap_range_split hpos, hholes, wideVol_file, List.append_nil]
    exact hfirst
  · rw [hes, hret]
    rintro (⟨-, l₁, l₂, -, h⟩ | ⟨h, -⟩)
    · simp at h
    · exact h rfl

end DvivonOS
