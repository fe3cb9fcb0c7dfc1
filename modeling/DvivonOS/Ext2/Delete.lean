import DvivonOS.Ext2.Assign
import DvivonOS.Ext2.Scan
import DvivonOS.Ext2.Ops
import DvivonOS.Ext2.Counts

/-!
# Deletion

`ext2_delete_inode` frees the direct blocks, the entries of the singly indirect block and that
block itself. `Core.freed` is the list of these blocks in the order of the calls, and
`Ready.deleteInode` says that the function gives up exactly them, the raw inode and the inode
number.

The blocks that `ext2_write` can put into a map lie in the slots below `14`
(`Core.Reachable`). The doubly indirect slot is not visited by the deletion, so all of them are
freed exactly when this slot is empty (`last_link_frees_blocks`).
-/

namespace DvivonOS

open List Bytes

/-! ## Freeing a list of blocks -/

def Vol.dropBlocks (G : Geo) (v : Vol) (L : List ℕ) : Vol :=
  L.foldl (fun v b => v.drop .block (G.kgroup .block b) (G.kindex .block b)) v

def Core.release (c : Core) (L : List ℕ) : Core :=
  { c with used := fun b => if b ∈ L then false else c.used b }

theorem Core.release_nil (c : Core) : c.release [] = c := by
  unfold Core.release
  simp

theorem Core.release_cons (c : Core) (b : ℕ) (L : List ℕ) :
    (c.setUsed b false).release L = c.release (b :: L) := by
  refine Core.ext (funext fun i => ?_) rfl rfl rfl
  by_cases hb : i = b <;> simp [Core.release, Core.setUsed, hb]

theorem drop_sb (v : Vol) (k : Kind) (g i : ℕ) :
    (v.drop k g i).sb = v.sb.put32 k.sbOff (v.sb.get32 k.sbOff + 1) := recount_sb

theorem dropBlock_count (v : Vol) (g i : ℕ) :
    (v.drop .block g i).sFreeBlocksCount = (v.sFreeBlocksCount + 1) % 2 ^ 32 := by
  unfold Vol.sFreeBlocksCount
  rw [drop_sb]
  exact get32_put32 _ _ _

theorem dropInode_count (v : Vol) (g i : ℕ) :
    (v.drop .inode g i).sFreeBlocksCount = v.sFreeBlocksCount := by
  unfold Vol.sFreeBlocksCount
  rw [drop_sb]
  exact get32_put32_of_disjoint _ _ (by decide)

theorem dropBlocks_count (G : Geo) (L : List ℕ) : ∀ v : Vol,
    (v.dropBlocks G L).sFreeBlocksCount = (v.sFreeBlocksCount + L.length) % 2 ^ 32 := by
  induction L with
  | nil => intro v; exact (Nat.mod_eq_of_lt (get32_lt _ _)).symm
  | cons b L ih =>
    intro v
    show ((v.drop .block _ _).dropBlocks G L).sFreeBlocksCount = _
    rw [ih, dropBlock_count, length_cons]
    omega

namespace Ready

variable {v : Vol} {G : Geo} {r : Inode}

theorem dropBlocks {L : List ℕ} (hL : ∀ b ∈ L, G.InRange b) : ∀ {v : Vol}, Ready v G r →
    Ready (v.dropBlocks G L) G r ∧ (v.dropBlocks G L).core = v.core.release L := by
  induction L with
  | nil => exact fun rd => ⟨rd, (Core.release_nil _).symm⟩
  | cons b L ih =>
    intro v rd
    have hb := hL b mem_cons_self
    obtain ⟨r', c'⟩ := rd.dropped (k := .block) hb
    have h := ih (fun b hb => hL b (mem_cons_of_mem _ hb)) r'
    rw [c'] at h
    exact ⟨h.1, h.2.trans (Core.release_cons _ _ _)⟩

theorem freeBlocks {L : List ℕ} (hL : ∀ b ∈ L, b ≠ 0 → G.InRange b) {Q : Unit → Vol → Prop} :
    ∀ {v : Vol}, Ready v G r →
      (After (DvivonOS.freeBlocks L) v Q ↔ Q () (v.dropBlocks G (L.filter (· ≠ 0)))) := by
  induction L with
  | nil => exact fun _ => Iff.rfl
  | cons b L ih =>
    intro v rd
    have ih := fun {v} => ih (fun b hb => hL b (mem_cons_of_mem _ hb)) (v := v)
    unfold DvivonOS.freeBlocks
    dsimp only
    by_cases h0 : b = 0
    · rw [if_neg (not_not.mpr h0), ih rd, filter_cons_of_neg (by simp [h0])]
    · have hb := hL b mem_cons_self h0
      rw [if_pos h0, after_bind]
      refine (after_free (k := .block) rd hb).trans ?_
      rw [ih (rd.dropped (k := .block) hb).1, filter_cons_of_pos (by simp [h0])]
      exact Iff.rfl

end Ready

/-! ## The blocks of an inode -/

/-- The places that `ext2_delete_inode` visits, in order. -/
def deletePlaces (G : Geo) : List (ℕ × List ℕ) :=
  (List.range 12).map (fun k => (k, [])) ++
    ((List.range G.ptrs).map (fun j => (12, [j])) ++ [(12, [])])

namespace Core

variable (c : Core) (x : Bytes) (G : Geo)

def freed : List ℕ := ((deletePlaces G).map fun q => c.block x q.1 q.2).filter (· ≠ 0)

/-- A block in the map of an inode, up to double indirection. -/
def Reachable (b : ℕ) : Prop := b ≠ 0 ∧ ∃ k p, k < 14 ∧ G.IsPlace k p ∧ c.block x k p = b

end Core

variable {G : Geo} {c : Core} {x : Bytes} {A : ℕ → Prop} {e : ℕ → Bytes} {n b : ℕ}

theorem mem_deletePlaces {q : ℕ × List ℕ} :
    q ∈ deletePlaces G ↔ q.1 ≤ 12 ∧ G.IsPlace q.1 q.2 := by
  obtain ⟨k, p⟩ := q
  rcases p with - | ⟨j, - | ⟨i, p⟩⟩ <;> simp [deletePlaces, Geo.IsPlace, depth] <;> omega

theorem nodup_deletePlaces (G : Geo) : (deletePlaces G).Nodup := by
  unfold deletePlaces
  refine List.Nodup.append (nodup_range.map fun a b h => (Prod.mk.inj h).1)
    (List.Nodup.append (nodup_range.map fun a b h => by simpa using h)
      (nodup_singleton _) ?_) ?_
  · simp
  · simp only [disjoint_left, mem_map, mem_range, mem_append,
      mem_singleton]
    rintro _ ⟨k, hk, rfl⟩ (⟨j, -, h⟩ | h)
    · simp at h
    · simp only [Prod.mk.injEq, and_true] at h
      omega

theorem mem_freed :
    b ∈ c.freed x G ↔ b ≠ 0 ∧ ∃ k p, k ≤ 12 ∧ G.IsPlace k p ∧ c.block x k p = b := by
  unfold Core.freed
  rw [mem_filter, mem_map]
  constructor
  · rintro ⟨⟨q, hq, rfl⟩, h0⟩
    obtain ⟨h1, h2⟩ := mem_deletePlaces.mp hq
    exact ⟨by simpa using h0, q.1, q.2, h1, h2, rfl⟩
  · rintro ⟨h0, k, p, hk, hp, rfl⟩
    exact ⟨⟨(k, p), mem_deletePlaces.mpr ⟨hk, hp⟩, rfl⟩, by simpa using h0⟩

theorem Own.nodup_freed (ow : Own G c A e) (hn : A n) : (c.freed (e n) G).Nodup := by
  unfold Core.freed
  rw [filter_map]
  refine List.Nodup.map_on ?_ ((nodup_deletePlaces G).filter _)
  intro q hq q' hq' h
  obtain ⟨hq, h0⟩ := mem_filter.mp hq
  obtain ⟨hq', -⟩ := mem_filter.mp hq'
  obtain ⟨-, hk, hp⟩ := ow.inj hn (mem_deletePlaces.mp hq).2 hn (mem_deletePlaces.mp hq').2
    (by simpa using h0) h
  exact Prod.ext hk hp

/-! ## `ext2_delete_inode` -/

theorem freed_of_slot_zero (h : iBlock x 12 = 0) :
    c.freed x G = ((List.range 12).map fun k => iBlock x k).filter (· ≠ 0) := by
  have h12 : ∀ p, c.block x 12 p = 0 := walk_of_root_eq_zero h
  unfold Core.freed deletePlaces
  rw [map_append, map_append, filter_append, filter_append, map_map,
    map_map]
  have h1 : (List.map ((fun q : ℕ × List ℕ => c.block x q.1 q.2) ∘ fun j => (12, [j]))
      (List.range G.ptrs)).filter (· ≠ 0) = [] := by
    rw [filter_eq_nil_iff]
    intro b hb
    obtain ⟨j, -, rfl⟩ := mem_map.mp hb
    simp [h12]
  rw [h1, map_singleton, h12]
  simp
  rfl

theorem freed_of_slot_ne_zero (h : iBlock x 12 ≠ 0) :
    c.freed x G = ((List.range 12).map fun k => iBlock x k).filter (· ≠ 0) ++
      (((List.range G.ptrs).map fun j => ptrAt (c.data (iBlock x 12)) j).filter (· ≠ 0) ++
        [iBlock x 12]) := by
  unfold Core.freed deletePlaces
  rw [map_append, map_append, filter_append, filter_append, map_map,
    map_map, map_singleton, filter_singleton, block_nil]
  have h1 : ((fun q : ℕ × List ℕ => c.block x q.1 q.2) ∘ fun j => (12, [j])) =
      fun j => ptrAt (c.data (iBlock x 12)) j := by
    funext j
    exact if_neg h
  rw [h1]
  simp [h]
  rfl

/-- The volume after `ext2_delete_inode`. -/
noncomputable def Vol.deleted (G : Geo) (v : Vol) (n : ℕ) (x : Bytes) : Vol :=
  ((v.dropBlocks G (v.core.freed x G)).putInode n Bytes.zero).drop .inode
    (G.kgroup .inode n) (G.kindex .inode n)

theorem deleted_count (v : Vol) (n : ℕ) (x : Bytes) : (v.deleted G n x).sFreeBlocksCount =
    (v.sFreeBlocksCount + (v.core.freed x G).length) % 2 ^ 32 := by
  unfold Vol.deleted
  rw [dropInode_count]
  exact dropBlocks_count G _ v

namespace Ready

variable {v : Vol} {r : Inode} (rd : Ready v G r) {target : Inode} (hn : G.IsInode target.ino)
  (hx : ∀ k p, k ≤ 12 → G.IsPlace k p → v.core.block target.disk k p ≠ 0 →
    G.InRange (v.core.block target.disk k p) ∧ ¬ G.Meta (v.core.block target.disk k p))

include hx

theorem freed_inRange : ∀ b ∈ v.core.freed target.disk G, G.InRange b := by
  intro b hb
  obtain ⟨h0, k, p, hk, hp, rfl⟩ := mem_freed.mp hb
  exact (hx k p hk hp h0).1

include rd hn

/-- **`ext2_delete_inode`** frees the blocks of the visited places, clears the raw inode and
releases the number. -/
theorem deleteInode {Q : ℤ → Vol → Prop} :
    After (ext2DeleteInode target) v Q ↔ Q 0 (v.deleted G target.ino target.disk) := by
  have hdir : ∀ b ∈ (List.range 12).map (fun k => iBlock target.disk k), b ≠ 0 → G.InRange b := by
    intro b hb h0
    obtain ⟨k, hk, rfl⟩ := mem_map.mp hb
    have hk := mem_range.mp hk
    exact (hx k [] (by omega) (Geo.isPlace_nil (by omega)) h0).1
  unfold ext2DeleteInode
  rw [after_bind, after_get, after_bind, freeBlocks hdir rd]
  have hr := freed_inRange hx
  obtain ⟨rdL, -⟩ := Ready.dropBlocks hr rd
  -- the tail of the function, once the blocks are free
  have htail : ∀ {v' : Vol}, v' = v.dropBlocks G (v.core.freed target.disk G) →
      (After (do
        let _ ← ext2WriteInodeRaw target.ino Bytes.zero
        ext2FreeInode target.ino
        return 0 : FsM ℤ) v' Q ↔ Q 0 (v.deleted G target.ino target.disk)) := by
    rintro v' rfl
    rw [after_bind, rdL.after_writeInodeRaw hn, after_bind]
    exact after_free (k := .inode) (rdL.putInode hn _).1 hn
  dsimp only
  by_cases h0 : iBlock target.disk 12 = 0
  · rw [if_neg (not_not.mpr h0)]
    exact htail (by rw [freed_of_slot_zero h0])
  · have hfr := freed_of_slot_ne_zero (c := v.core) (G := G) h0
    rw [hfr, forall_mem_append, forall_mem_append, forall_mem_singleton] at hr
    obtain ⟨hdir', hsin, h12⟩ := hr
    obtain ⟨rd1, hc1⟩ := Ready.dropBlocks hdir' rd
    obtain ⟨rd2, -⟩ := Ready.dropBlocks hsin rd1
    rw [if_pos h0, after_bind, after_kmallocOk rd1.env, if_pos rfl, after_bind,
      rd1.read (by exact (hx 12 [] le_rfl (Geo.isPlace_nil (by norm_num)) h0).2)]
    dsimp only
    rw [hc1, after_bind, rd.bs_eq]
    change After (DvivonOS.freeBlocks ((List.range G.ptrs).map fun j =>
      ptrAt (v.core.data (iBlock target.disk 12)) j)) _ _ ↔ _
    rw [freeBlocks (fun b hb hb0 => hsin b (mem_filter.mpr ⟨hb, by simpa⟩)) rd1, after_bind]
    refine (after_free (k := .block) rd2 h12).trans (htail ?_)
    rw [hfr]
    unfold Vol.dropBlocks
    rw [foldl_append, foldl_append]
    rfl

theorem deleted : Ready (v.deleted G target.ino target.disk) G r ∧
    (v.deleted G target.ino target.disk).core =
      ((v.core.release (v.core.freed target.disk G)).setIno target.ino Bytes.zero).setIused
        target.ino false := by
  have hz : Bytes.zero.copy 0 Bytes.zero 128 = Bytes.zero := by
    funext i
    unfold Bytes.copy
    exact ite_self _
  obtain ⟨rd1, h1⟩ := Ready.dropBlocks (freed_inRange hx) rd
  obtain ⟨rd2, h2⟩ := rd1.putInode hn Bytes.zero
  obtain ⟨rd3, h3⟩ := rd2.dropped (k := .inode) hn
  rw [h2, h1, hz] at h3
  exact ⟨rd3, h3⟩

end Ready

/-! ## `ext2_unlink` and `ext2_rmdir` -/

/-- From `v` to `v'` the inode `m`, whose raw inode was `x`, has been deleted; `c` is the abstract
volume before the deletion. -/
structure Removed (G : Geo) (v : Vol) (c : Core) (m : ℕ) (x : Bytes) (v' : Vol) : Prop where
  core : v'.core = ((c.release (v.core.freed x G)).setIno m Bytes.zero).setIused m false
  count : v'.sFreeBlocksCount = (v.sFreeBlocksCount + (v.core.freed x G).length) % 2 ^ 32

def Inode.withLinks (inode : Inode) (k : ℕ) : Inode :=
  { inode with nlink := k, disk := { inode with nlink := k }.toDisk }

/-- Raw inodes on disk end after 128 bytes. -/
def onDisk (x : Bytes) : Bytes := Bytes.zero.copy 0 x 128

section Unlink

variable {v : Vol} {r : Inode} (rd : Ready v G r) (ow : Own G v.core A e) {dir : Inode}
  {name : Name} (hd : A dir.ino) (hed : e dir.ino = dir.disk)

/-- The entry that a lookup finds. -/
noncomputable def Vol.found (v : Vol) (G : Geo) (dir : Inode) (name : Name) : Option DirEntry :=
  if fsIsDir dir.mode then findEntry G (v.core.file dir.disk G) dir.size name else none

theorem freed_congr {c' : Core}
    (h : ∀ k p, G.IsPlace k p → c'.block x k p = c.block x k p) : c'.freed x G = c.freed x G := by
  unfold Core.freed
  congr 1
  refine map_congr_left fun q hq => h q.1 q.2 (mem_deletePlaces.mp hq).2

theorem Ready.deleteTarget {v₁ : Vol} (rd₁ : Ready v₁ G r) {target : Inode}
    (hn : G.IsInode target.ino) (hx : ∀ k p, G.IsPlace k p → v.core.block target.disk k p ≠ 0 →
      Usable G v.core (v.core.block target.disk k p))
    (hb : ∀ k p, G.IsPlace k p → v₁.core.block target.disk k p = v.core.block target.disk k p)
    (hs : v₁.sFreeBlocksCount = v.sFreeBlocksCount) {Q : ℤ → Vol → Prop}
    (h : ∀ v', Ready v' G r → Removed G v v₁.core target.ino target.disk v' → Q 0 v') :
    After (ext2DeleteInode target) v₁ Q := by
  have hx' : ∀ k p, k ≤ 12 → G.IsPlace k p → v₁.core.block target.disk k p ≠ 0 →
      G.InRange (v₁.core.block target.disk k p) ∧ ¬ G.Meta (v₁.core.block target.disk k p) := by
    intro k p _ hp h0
    rw [hb k p hp] at h0 ⊢
    exact ⟨(hx k p hp h0).range, (hx k p hp h0).data⟩
  have hf := freed_congr (x := target.disk) hb
  obtain ⟨rd', hc⟩ := rd₁.deleted hn hx'
  rw [rd₁.deleteInode hn hx']
  refine h _ rd' ⟨by rw [hc, hf], ?_⟩
  rw [deleted_count, hf, hs]

include rd ow hd hed

namespace Ready

/-- The block of a removed entry belongs to no map. -/
theorem store_removed {l : ℕ} {buf : Bytes}
    (hrm : removeEntry G (v.core.file dir.disk G) dir.size name = some (l, buf)) :
    (v.write (v.core.fileBlock dir.disk G l) buf).core =
        v.core.setData (v.core.fileBlock dir.disk G l) buf ∧
      ∀ m k p, A m → G.IsPlace k p →
        (v.core.setData (v.core.fileBlock dir.disk G l) buf).block (e m) k p =
          v.core.block (e m) k p := by
  obtain ⟨-, hl, ⟨old, hold, -⟩, -⟩ := scan_some _ _ hrm
  rw [Nat.zero_add] at hl
  have hl := lt_of_lt_of_le hl (rd.wf.dirBlocks_le _)
  have h0 := fileBlock_ne_zero hold
  rw [← hed] at h0 ⊢
  exact ⟨rd.core_write (ow.good _ _ _ hd (rd.wf.place_isPlace hl) h0).data buf,
    (ow.store_file rd.wf hd hl h0 buf).1⟩

theorem lookup (hin : ∀ de, v.found G dir name = some de → G.IsInode de.inode)
    {Q : Option Inode → Vol → Prop} :
    After (ext2Lookup dir name) v Q ↔
      Q ((v.found G dir name).map fun de => Inode.ofDisk de.inode (v.core.ino de.inode)) v := by
  unfold ext2Lookup
  rw [after_bind, rd.findDirEntry (hed ▸ ow.mapOk hd)]
  have hfound : (if fsIsDir dir.mode then findEntry G (v.core.file dir.disk G) dir.size name
    else none) = v.found G dir name := rfl
  rw [hfound]
  cases hf : v.found G dir name with
  | none => exact Iff.rfl
  | some de => exact rd.readInode (hin de hf)

/-- **`ext2_unlink`**: nothing happens, or the entry is removed, and with the last link the inode
is deleted. -/
theorem unlink (hin : ∀ de, v.found G dir name = some de → G.IsInode de.inode)
    (htgt : ∀ de, v.found G dir name = some de → fsIsDir (iMode (v.core.ino de.inode)) = false →
      A de.inode ∧ e de.inode = v.core.ino de.inode) {Q : ℤ → Vol → Prop} (hfail : Q (-1) v)
    (hlast : ∀ de l buf v', v.found G dir name = some de →
      fsIsDir (iMode (v.core.ino de.inode)) = false →
      removeEntry G (v.core.file dir.disk G) dir.size name = some (l, buf) →
      iLinksCount (v.core.ino de.inode) = 1 → Ready v' G r →
      Removed G v (v.core.setData (v.core.fileBlock dir.disk G l) buf) de.inode
        (v.core.ino de.inode) v' → Q 0 v')
    (hmore : ∀ de l buf v', v.found G dir name = some de →
      fsIsDir (iMode (v.core.ino de.inode)) = false →
      removeEntry G (v.core.file dir.disk G) dir.size name = some (l, buf) →
      iLinksCount (v.core.ino de.inode) ≠ 1 → Ready v' G r →
      v'.core = (v.core.setData (v.core.fileBlock dir.disk G l) buf).setIno de.inode
        (onDisk ((Inode.ofDisk de.inode (v.core.ino de.inode)).withLinks
          (sub32 (iLinksCount (v.core.ino de.inode)) 1)).disk) → Q 0 v') :
    After (ext2Unlink dir name) v Q := by
  unfold ext2Unlink
  rw [after_bind, rd.lookup ow hd hed hin]
  cases hf : v.found G dir name with
  | none => exact hfail
  | some de =>
    have hn := hin de hf
    dsimp only [Option.map_some]
    change After (if fsIsDir (iMode (v.core.ino de.inode)) = true then _ else _) v Q
    cases hdir : fsIsDir (iMode (v.core.ino de.inode)) with
    | true => exact hfail
    | false =>
      obtain ⟨hA, he⟩ := htgt de hf hdir
      rw [if_neg Bool.false_ne_true, after_bind, rd.removeDirEntry (hed ▸ ow.mapOk hd)]
      cases hrm : removeEntry G (v.core.file dir.disk G) dir.size name with
      | none => exact hfail
      | some lb =>
        obtain ⟨l, buf⟩ := lb
        obtain ⟨hc1, hst⟩ := rd.store_removed ow hd hed hrm
        dsimp only
        rw [if_neg (by simp)]
        change After (if sub32 (iLinksCount (v.core.ino de.inode)) 1 = 0 then _ else _) _ Q
        have h16 : iLinksCount (v.core.ino de.inode) < 65536 := get16_lt _ _
        by_cases hl1 : iLinksCount (v.core.ino de.inode) = 1
        · rw [if_pos (by rw [hl1]; rfl), after_bind]
          refine Ready.deleteTarget (v := v) (rd.writeAt _ _) hn
            (fun k p => he ▸ ow.good de.inode k p hA) (fun k p => ?_) rfl fun v' rd' hrem => ?_
          · rw [hc1]
            exact he ▸ hst de.inode k p hA
          · rw [after_pure]
            rw [hc1] at hrem
            exact hlast de l buf v' hf hdir hrm hl1 rd' hrem
        · rw [if_neg (by unfold sub32; omega), after_bind]
          unfold ext2WriteInode
          rw [after_bind]
          refine (rd.writeAt _ _).writeInodeRaw hn fun v' rd' hc' => ?_
          rw [after_pure, after_pure]
          rw [hc1] at hc'
          exact hmore de l buf v' hf hdir hrm hl1 rd' hc'

/-- **`ext2_rmdir`**: nothing happens, or the entry is removed, the directory loses a link and the
inode is deleted. -/
theorem rmdir (hdn : G.IsInode dir.ino)
    (hin : ∀ de, v.found G dir name = some de → G.IsInode de.inode)
    (htgt : ∀ de, v.found G dir name = some de → fsIsDir (iMode (v.core.ino de.inode)) = true →
      A de.inode ∧ e de.inode = v.core.ino de.inode) {Q : ℤ × Inode → Vol → Prop}
    (hfail : Q (-1, dir) v)
    (hok : ∀ de l buf v', v.found G dir name = some de →
      fsIsDir (iMode (v.core.ino de.inode)) = true →
      ¬ 2 < toInt32 (countLive (v.core.file (v.core.ino de.inode) G) G.bs
        (dirBlocks (iSize (v.core.ino de.inode)) G.bs) 0 % 2 ^ 32) →
      removeEntry G (v.core.file dir.disk G) dir.size name = some (l, buf) → Ready v' G r →
      Removed G v ((v.core.setData (v.core.fileBlock dir.disk G l) buf).setIno dir.ino
        (onDisk (dir.withLinks (sub32 dir.nlink 1)).disk)) de.inode (v.core.ino de.inode) v' →
      Q (0, dir.withLinks (sub32 dir.nlink 1)) v') :
    After (ext2Rmdir dir name) v Q := by
  unfold ext2Rmdir
  rw [after_bind, rd.lookup ow hd hed hin]
  cases hf : v.found G dir name with
  | none => exact hfail
  | some de =>
    have hn := hin de hf
    dsimp only [Option.map_some]
    change After (if (!fsIsDir (iMode (v.core.ino de.inode))) = true then _ else _) v Q
    cases hdir : fsIsDir (iMode (v.core.ino de.inode)) with
    | false => exact hfail
    | true =>
      obtain ⟨hA, he⟩ := htgt de hf hdir
      have hx : MapOk G v.core (v.core.ino de.inode) := he ▸ ow.mapOk hA
      rw [Bool.not_true, if_neg Bool.false_ne_true, after_bind, after_get, after_kmalloc rd.env,
        after_bind, rd.bs_eq,
        rd.countLoop hx _ _ (by rw [Nat.zero_add]; exact rd.wf.dirBlocks_le _)]
      change After (if 2 < toInt32 (countLive (v.core.file (v.core.ino de.inode) G) G.bs
        (dirBlocks (iSize (v.core.ino de.inode)) G.bs) 0 % 2 ^ 32) then _ else _) v Q
      by_cases hcount : 2 < toInt32 (countLive (v.core.file (v.core.ino de.inode) G) G.bs
        (dirBlocks (iSize (v.core.ino de.inode)) G.bs) 0 % 2 ^ 32)
      · rw [if_pos hcount]; exact hfail
      rw [if_neg hcount, after_bind, rd.removeDirEntry (hed ▸ ow.mapOk hd)]
      cases hrm : removeEntry G (v.core.file dir.disk G) dir.size name with
      | none => exact hfail
      | some lb =>
        obtain ⟨l, buf⟩ := lb
        obtain ⟨hc1, hst⟩ := rd.store_removed ow hd hed hrm
        have rd1 := rd.writeAt (v.core.fileBlock dir.disk G l) buf
        dsimp only
        rw [if_neg (by simp), after_bind]
        unfold ext2WriteInode
        rw [after_bind, rd1.after_writeInodeRaw hdn, after_pure, after_bind]
        obtain ⟨rd2, hc2⟩ := rd1.putInode hdn { dir with nlink := sub32 dir.nlink 1 }.toDisk
        rw [hc1] at hc2
        refine Ready.deleteTarget (v := v) rd2 hn (fun k p => he ▸ ow.good de.inode k p hA)
          (fun k p => ?_) rfl fun v3 rd3 hrem => ?_
        · rw [hc2]
          exact he ▸ hst de.inode k p hA
        · rw [hc2] at hrem
          have hg : G.kgroup .inode de.inode < G.groups := rd.wf.kgroup_lt (k := .inode) hn
          have hipg : v.sInodesPerGroup = G.ipg := congrArg Geo.ipg rd.geo
          -- the directory count is not part of the abstract volume
          have hend : ∀ v4, Ready v4 G r → v4.core = v3.core →
              v4.sFreeBlocksCount = v3.sFreeBlocksCount →
              After (do
                let _ ← ext2FlushGroupDesc ((de.inode - 1) / v.sInodesPerGroup)
                return (0, dir.withLinks (sub32 dir.nlink 1)) : FsM (ℤ × Inode)) v4 Q := by
            intro v4 rd4 hc4 hs4
            rw [after_bind, hipg, after_flushGroupDesc rd4.env rd4.wf' (by rw [rd4.geo]; exact hg),
              after_pure]
            obtain ⟨rd5, hc5⟩ := rd4.flushGd hg
            exact hok de l buf _ hf hdir hcount hrm rd5
              ⟨(hc5.trans hc4).trans hrem.core, hs4.trans hrem.count⟩
          rw [after_bind, after_modify]
          split_ifs
          · exact hend _ rd3.setUsedDirs.1 rd3.setUsedDirs.2 rfl
          · exact hend _ rd3 rfl rfl

end Ready

end Unlink

/-! ## Removing the last link -/

def Core.Alloc (c : Core) (G : Geo) (n : ℕ) : Prop := G.IsInode n ∧ c.iused n = true

/-- A consistent volume with the open inode `dir`. The raw inodes `e` are those on disk, except
where an inode in memory is ahead of its copy on disk. -/
structure Opened (v : Vol) (G : Geo) (e : ℕ → Bytes) (dir : Inode) : Prop where
  ready : Ready v G v.root
  own : Own G v.core (v.core.Alloc G) e
  alloc : v.core.Alloc G dir.ino
  disk : e dir.ino = dir.disk

theorem Opened.mapOk {v : Vol} {G : Geo} {e : ℕ → Bytes} {dir : Inode} (op : Opened v G e dir) :
    MapOk G v.core dir.disk := op.disk ▸ op.own.mapOk op.alloc

/-- From `v` to `v'` the last link of an inode with the raw inode `x` has been removed. -/
inductive RemovesLast (v : Vol) (dir : Inode) (name : Name) (x : Bytes) : Vol → Prop
  | unlink (v' : Vol) : (ext2Unlink dir name).run v = (0, v') → iLinksCount x = 1 →
      RemovesLast v dir name x v'
  | rmdir (v' : Vol) (dir' : Inode) : (ext2Rmdir dir name).run v = ((0, dir'), v') →
      RemovesLast v dir name x v'

/-- From `v` to `v'` the blocks of inode `m` have become free, each by one call, and no others, and
the inode number is free. -/
structure FreesAll (G : Geo) (v : Vol) (m : ℕ) (v' : Vol) : Prop where
  free : ∀ b, v.core.Reachable (v.core.ino m) G b → v'.core.used b = false
  once : v'.sFreeBlocksCount =
    (v.sFreeBlocksCount + Set.ncard {b | v.core.Reachable (v.core.ino m) G b}) % 2 ^ 32
  other : ∀ b, ¬ v.core.Reachable (v.core.ino m) G b → v'.core.used b = v.core.used b
  inode : v'.core.iused m = false

/-- What remains once the inode is deleted: the blocks below the doubly indirect slot. -/
theorem Removed.freesAll_iff {v v' : Vol} {m : ℕ} (h : Removed G v c m (v.core.ino m) v')
    (hu : c.used = v.core.used) (ow : Own G v.core A e) (hm : A m) (he : e m = v.core.ino m) :
    FreesAll G v m v' ↔ iBlock (v.core.ino m) 13 = 0 := by
  have hused : ∀ b, v'.core.used b =
      if b ∈ v.core.freed (v.core.ino m) G then false else v.core.used b := by
    intro b
    rw [h.core, ← hu]
    rfl
  have hp13 : G.IsPlace 13 [] := Geo.isPlace_nil (by norm_num)
  constructor
  · intro hall
    by_contra h13
    have hfree := hall.free _ ⟨h13, 13, [], by norm_num, hp13, rfl⟩
    rw [hused, if_neg] at hfree
    · have := (ow.good m 13 [] hm hp13 (by rw [he]; exact h13)).used
      rw [he, block_nil, hfree] at this
      exact Bool.noConfusion this
    · intro hmem
      obtain ⟨h0, k, p, hk, hp, hb⟩ := mem_freed.mp hmem
      rw [← hb, ← he] at h0
      have := (ow.inj hm hp hm hp13 h0 (by rw [he]; exact hb)).2.1
      omega
  · intro h13
    have hreach : ∀ b, v.core.Reachable (v.core.ino m) G b ↔
        b ∈ v.core.freed (v.core.ino m) G := by
      intro b
      rw [mem_freed]
      constructor
      · rintro ⟨h0, k, p, hk, hp, hb⟩
        refine ⟨h0, k, p, ?_, hp, hb⟩
        by_contra hk'
        obtain rfl : k = 13 := by omega
        rw [← hb] at h0
        exact h0 (walk_of_root_eq_zero h13 p)
      · rintro ⟨h0, k, p, hk, hp, hb⟩
        exact ⟨h0, k, p, by omega, hp, hb⟩
    have hnodup : (v.core.freed (v.core.ino m) G).Nodup := he ▸ ow.nodup_freed hm
    have hset : {b | v.core.Reachable (v.core.ino m) G b} =
        ((v.core.freed (v.core.ino m) G).toFinset : Set ℕ) := by
      ext b
      rw [coe_toFinset]
      exact hreach b
    refine ⟨fun b hb => ?_, ?_, fun b hb => ?_, ?_⟩
    · rw [hused, if_pos ((hreach b).mp hb)]
    · rw [hset, Set.ncard_coe_finset, toFinset_card_of_nodup hnodup]
      exact h.count
    · rw [hused, if_neg (fun hmem => hb ((hreach b).mpr hmem))]
    · rw [h.core]
      exact Function.update_self _ _ _

theorem Opened.run_find {v : Vol} {dir : Inode} {name : Name} (op : Opened v G e dir) :
    (ext2FindDirEntry dir name).run v = (v.found G dir name, v) := by
  have h : After (ext2FindDirEntry dir name) v fun a s => a = v.found G dir name ∧ s = v :=
    (op.ready.findDirEntry (op.disk ▸ op.own.mapOk op.alloc)).mpr ⟨rfl, rfl⟩
  exact Prod.ext h.1 h.2

/-- **Deletion.** In a consistent volume, when the last link of an inode is removed, the blocks
reachable from its `i_block` are freed, each once and no others, and its number is freed, exactly
if it has no doubly indirect block. -/
theorem last_link_frees_blocks {v v' : Vol} {dir : Inode} {name : Name} {de : DirEntry}
    (op : Opened v G e dir) (hfind : ((ext2FindDirEntry dir name).run v).1 = some de)
    (hm : v.core.Alloc G de.inode) (he : e de.inode = v.core.ino de.inode)
    (hrun : RemovesLast v dir name (v.core.ino de.inode) v') :
    FreesAll G v de.inode v' ↔ iBlock (v.core.ino de.inode) 13 = 0 := by
  rw [op.run_find] at hfind
  have hde : ∀ de', v.found G dir name = some de' → de' = de :=
    fun de' h => Option.some.inj (h.symm.trans hfind)
  cases hrun with
  | unlink hr hl =>
    have h : After (ext2Unlink dir name) v fun ret v' => ret = 0 →
        (FreesAll G v de.inode v' ↔ iBlock (v.core.ino de.inode) 13 = 0) :=
      op.ready.unlink op.own op.alloc op.disk
      (fun de' h => hde de' h ▸ hm.1) (fun de' h _ => hde de' h ▸ ⟨hm, he⟩)
      (fun h => absurd h (by simp))
      (fun de' l buf v' h _ _ _ _ hrem _ => by
        obtain rfl := hde de' h
        exact hrem.freesAll_iff rfl op.own hm he)
      (fun de' l buf v' h _ _ hne => by
        obtain rfl := hde de' h
        exact absurd hl hne)
    exact h.of_run hr rfl
  | rmdir dir' hr =>
    have h : After (ext2Rmdir dir name) v fun ret v' => ret.1 = 0 →
        (FreesAll G v de.inode v' ↔ iBlock (v.core.ino de.inode) 13 = 0) :=
      op.ready.rmdir op.own op.alloc op.disk op.alloc.1
      (fun de' h => hde de' h ▸ hm.1) (fun de' h _ => hde de' h ▸ ⟨hm, he⟩)
      (fun h => absurd h (by simp))
      (fun de' l buf v' h _ _ _ _ hrem _ => by
        obtain rfl := hde de' h
        exact hrem.freesAll_iff rfl op.own hm he)
    exact h.of_run hr rfl

/-! ### A volume with one file -/

theorem Own.of_direct (hm : MetaUsed G c)
    (hi : ∀ n k, A n → 12 ≤ k → k < 15 → iBlock (e n) k = 0)
    (hg : ∀ n k, A n → k < 12 → iBlock (e n) k ≠ 0 → Usable G c (iBlock (e n) k))
    (ha : ∀ n k n' k', A n → A n' → k < 12 → k' < 12 → iBlock (e n) k ≠ 0 →
      iBlock (e n) k = iBlock (e n') k' → n = n' ∧ k = k') : Own G c A e := by
  have hp : ∀ n k p, A n → G.IsPlace k p → c.block (e n) k p ≠ 0 → k < 12 ∧ p = [] := by
    intro n k p hn hp h0
    have hk : k < 12 := by
      by_contra hk
      exact h0 (walk_of_root_eq_zero (hi n k hn (by omega) hp.1) p)
    have := hp.2.1
    unfold depth at this
    exact ⟨hk, eq_nil_of_length_eq_zero (by omega)⟩
  refine ⟨hm, fun n k p hn hpl h0 => ?_, ?_⟩
  · obtain ⟨hk, rfl⟩ := hp n k p hn hpl h0
    exact hg n k hn hk h0
  · rintro ⟨n, k⟩ p ⟨n', k'⟩ p' ⟨hn, hpl⟩ ⟨hn', hpl'⟩ h0 h
    rw [walk_slots] at h0 h
    rw [walk_slots] at h
    obtain ⟨hk, rfl⟩ := hp n k p hn hpl h0
    obtain ⟨hk', rfl⟩ := hp n' k' p' hn' hpl' (h ▸ h0)
    obtain ⟨rfl, rfl⟩ := ha n k n' k' hn hn' hk hk' h0 h
    exact ⟨rfl, rfl⟩

def fileInode : Bytes := setIBlock ((newFileInode 0o644).put32 4 3) 0 8

/-- The small volume with the file `a` in inode 11 and block 8. -/
def fileDisk (b : ℕ) : Bytes :=
  match b with
  | 3 => Bytes.zero.put8 0 0xFF
  | 4 => (Bytes.zero.put8 0 0xFF).put8 1 0x07
  | 6 => Bytes.zero.copy 256 fileInode 128
  | 7 => (addInBlock (newDirBlock 1024 2 2) 1024 [97] 11 ext2FtRegFile 1024 0).getD Bytes.zero
  | 8 => Bytes.ofList [104, 105, 10]
  | b => sampleDisk b

def fileVol : Vol := { sampleVol with disk := fileDisk }

theorem fileVol_ready : Ready fileVol sampleVol.geo fileVol.root := ⟨rfl, sampleVol_wf, rfl, rfl⟩

theorem sampleVol_meta {b : ℕ} (h : sampleVol.geo.Meta b) : 1 ≤ b ∧ b < 7 := by
  obtain ⟨a, ha, rfl⟩ := h
  rw [sampleVol_geo] at ha ⊢
  cases a <;> simp only [Geo.Valid, Geo.addr, Geo.gdpb, Geo.ipb] at ha ⊢ <;> omega

theorem fileVol_slots : ∀ n < 17, ∀ k < 15, iBlock (fileVol.core.ino n) k =
    if n = 2 ∧ k = 0 then 7 else if n = 11 ∧ k = 0 then 8 else 0 := by
  decide +kernel

/-- An inode of `n` bytes, as it is read back from its slot at `o`. -/
theorem slot_copy {x : Bytes} {n o : ℕ} (h : ∀ i, n ≤ i → x i = 0) :
    Bytes.zero.copy 0 ((Bytes.zero.copy o x n).drop o) n = x := by
  funext i
  by_cases hi : i < n
  · rw [copy_of_mem _ _ (Nat.zero_le _) (by omega), Nat.sub_zero]
    unfold Bytes.drop
    rw [copy_of_mem _ _ (by omega) (by omega), Nat.add_sub_cancel_left]
  · rw [copy_of_not_mem _ _ (by omega), h i (by omega)]
    rfl

theorem newDirInode_zero (mode bs blk : ℕ) {i : ℕ} (h : 128 ≤ i) : newDirInode mode bs blk i = 0 := by
  unfold newDirInode setIBlock
  simp (disch := omega) only [put32_of_not_mem, put16_of_not_mem]
  rfl

theorem sampleRoot_onDisk : fileVol.core.ino 2 = sampleRoot :=
  slot_copy fun _ => newDirInode_zero _ _ _

/-- A volume of the small layout whose inodes hold block 7 for the root and block 8 for the file. -/
theorem opened_of_slots {v : Vol} (rd : Ready v sampleVol.geo v.root)
    (hslots : ∀ n < 17, ∀ k < 15, iBlock (v.core.ino n) k =
      if n = 2 ∧ k = 0 then 7 else if n = 11 ∧ k = 0 then 8 else 0)
    (hused : ∀ b < 9, v.core.used b = true) {dir : Inode}
    (ha : v.core.Alloc sampleVol.geo dir.ino) (hd : v.core.ino dir.ino = dir.disk) :
    Opened v sampleVol.geo v.core.ino dir := by
  have hn : ∀ {n}, v.core.Alloc sampleVol.geo n → n < 17 := fun h => Nat.lt_succ_of_le h.1.2
  refine ⟨rd, Own.of_direct (fun b hb => ?_) (fun n k h h12 h15 => ?_)
    (fun n k h h12 h0 => ?_) (fun n k n' k' h h' h12 h12' h0 he => ?_), ha, hd⟩
  · exact hused b (by have := sampleVol_meta hb; omega)
  · rw [hslots n (hn h) k h15, if_neg (by omega), if_neg (by omega)]
  · rw [hslots n (hn h) k (by omega)] at h0 ⊢
    split_ifs at h0 ⊢ with h1 h2
    · exact ⟨by decide, fun h => by have := sampleVol_meta h; omega, hused 7 (by omega)⟩
    · exact ⟨by decide, fun h => by have := sampleVol_meta h; omega, hused 8 (by omega)⟩
    · exact absurd rfl h0
  · rw [hslots n (hn h) k (by omega)] at h0 he
    rw [hslots n' (hn h') k' (by omega)] at he
    split_ifs at h0 he with h1 h2 h3 h4 <;> omega

theorem fileVol_opened : Opened fileVol sampleVol.geo fileVol.core.ino fileVol.root :=
  opened_of_slots fileVol_ready fileVol_slots (by decide +kernel) ⟨by decide, by decide +kernel⟩
    sampleRoot_onDisk

/-- The file of the small volume has no doubly indirect block, so unlinking it frees its block. -/
theorem last_link_frees_blocks_file :
    FreesAll sampleVol.geo fileVol 11 ((ext2Unlink fileVol.root [97]).run fileVol).2 := by
  have hfind : ((ext2FindDirEntry fileVol.root [97]).run fileVol).1 =
      some ⟨11, 1000, 1, [97]⟩ := by decide +kernel
  have hrun : RemovesLast fileVol fileVol.root [97] (fileVol.core.ino 11)
      ((ext2Unlink fileVol.root [97]).run fileVol).2 :=
    .unlink _ (run_eq_of_fst (by decide +kernel)) (by decide +kernel)
  exact (last_link_frees_blocks fileVol_opened hfind ⟨by decide, by decide +kernel⟩ rfl hrun).mpr
    (by decide +kernel)

/-- The volume after one byte has been written at the first offset behind the singly indirect
blocks. -/
def doublyVol : Vol :=
  ((ext2Write (Inode.ofDisk 11 fileInode) Bytes.zero 1 (268 * 1024)).run fileVol).2

/-- After a write of one byte behind the singly indirect blocks, unlinking the file leaves its
doubly indirect block marked used. -/
theorem doubly_indirect_block_leaks :
    ((ext2Unlink fileVol.root [97]).run doublyVol).1 = 0 ∧
      iLinksCount (doublyVol.core.ino 11) = 1 ∧
      doublyVol.core.Reachable (doublyVol.core.ino 11) sampleVol.geo 10 ∧
      ((ext2Unlink fileVol.root [97]).run doublyVol).2.core.used 10 = true ∧
      ¬ FreesAll sampleVol.geo doublyVol 11 ((ext2Unlink fileVol.root [97]).run doublyVol).2 := by
  have hreach : doublyVol.core.Reachable (doublyVol.core.ino 11) sampleVol.geo 10 :=
    ⟨by decide, 13, [], by decide, Geo.isPlace_nil (by decide), by decide +kernel⟩
  have hused : ((ext2Unlink fileVol.root [97]).run doublyVol).2.core.used 10 = true := by
    decide +kernel
  refine ⟨by decide +kernel, by decide +kernel, hreach, hused, fun h => ?_⟩
  have := h.free 10 hreach
  rw [hused] at this
  exact Bool.noConfusion this

end DvivonOS
